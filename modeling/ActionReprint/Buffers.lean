/-!
The three texts of one generation pass. One of them is active and takes what is
written without naming a buffer. Text in a buffer is only ever added to.
-/

namespace ActionReprint

inductive BufferKind where
  | body
  /-- Declarations: the inside of the header file of a split layout. -/
  | header
  /-- Static initialisers: in front of the definitions in a split layout. -/
  | statics
  deriving DecidableEq, Repr

structure Buffers where
  body : String
  header : String
  statics : String
  active : BufferKind
  deriving DecidableEq, Repr

namespace Buffers

def empty : Buffers := ⟨"", "", "", .body⟩

def get (buffers : Buffers) : BufferKind → String
  | .body => buffers.body
  | .header => buffers.header
  | .statics => buffers.statics

def append (buffers : Buffers) (kind : BufferKind) (text : String) : Buffers :=
  match kind with
  | .body => { buffers with body := buffers.body ++ text }
  | .header => { buffers with header := buffers.header ++ text }
  | .statics => { buffers with statics := buffers.statics ++ text }

def write (buffers : Buffers) (text : String) : Buffers :=
  buffers.append buffers.active text

def select (buffers : Buffers) (kind : BufferKind) : Buffers :=
  { buffers with active := kind }

def activeText (buffers : Buffers) : String :=
  buffers.get buffers.active

theorem get_append (buffers : Buffers) (kind other : BufferKind) (text : String) :
    (buffers.append kind text).get other =
      buffers.get other ++ (if kind = other then text else "") := by
  cases kind <;> cases other <;> simp [append, get]

@[simp] theorem active_append (buffers : Buffers) (kind : BufferKind) (text : String) :
    (buffers.append kind text).active = buffers.active := by
  cases kind <;> rfl

@[simp] theorem get_select (buffers : Buffers) (kind other : BufferKind) :
    (buffers.select kind).get other = buffers.get other := by
  cases other <;> rfl

theorem get_write (buffers : Buffers) (other : BufferKind) (text : String) :
    (buffers.write text).get other =
      buffers.get other ++ (if buffers.active = other then text else "") :=
  get_append buffers buffers.active other text

@[simp] theorem active_write (buffers : Buffers) (text : String) :
    (buffers.write text).active = buffers.active :=
  active_append buffers buffers.active text

end Buffers

end ActionReprint
