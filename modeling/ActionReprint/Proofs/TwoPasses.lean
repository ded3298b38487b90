import ActionReprint.Proofs.Gaps

/-!
Stripping told as two passes over the whole text. The first one takes the comments out and
leaves their line feeds, the second one the commas in front of what closes; both pass over
strings. Main statement: `strip_eq_passes`. A pass takes out no line feed, so what it leaves
stands on the lines where it stood.
-/

namespace ActionReprint.Jsonc

/-- The rest of a string with the quote that ends it, which is the first one that is not
escaped, and what is behind it. A string that is not closed lasts to the end. -/
def cutString : Bool → List Char → List Char × List Char
  | _, [] => ([], [])
  | escaped, c :: rest =>
      if c = '"' ∧ escaped = false then ([c], rest)
      else
        let cut := cutString (c == '\\' && !escaped) rest
        (c :: cut.1, cut.2)

/-- The inside of a block comment up to its first end, and what is behind that. A comment
that is not closed lasts to the end. -/
def cutBlock : List Char → List Char × List Char
  | [] => ([], [])
  | '*' :: '/' :: rest => ([], rest)
  | c :: rest =>
      let cut := cutBlock rest
      (c :: cut.1, cut.2)

theorem cutString_inside {escaped : Bool} {c : Char} (inside : ¬ (c = '"' ∧ escaped = false))
    (rest : List Char) :
    cutString escaped (c :: rest) =
      (c :: (cutString (c == '\\' && !escaped) rest).1,
        (cutString (c == '\\' && !escaped) rest).2) :=
  if_neg inside

theorem cutString_append (escaped : Bool) (text : List Char) :
    (cutString escaped text).1 ++ (cutString escaped text).2 = text := by
  induction text generalizing escaped with
  | nil => rfl
  | cons c rest ih =>
      by_cases quote : c = '"' ∧ escaped = false
      · obtain ⟨rfl, rfl⟩ := quote
        rfl
      · rw [cutString_inside quote]
        exact congrArg (c :: ·) (ih _)

theorem cutString_of_cut (escaped : Bool) (text : List Char) {more : List Char}
    (ends : (cutString escaped text).2 = [] → more = []) :
    cutString escaped ((cutString escaped text).1 ++ more) =
      ((cutString escaped text).1, more) := by
  induction text generalizing escaped with
  | nil =>
      rw [ends rfl]
      rfl
  | cons c rest ih =>
      by_cases quote : c = '"' ∧ escaped = false
      · obtain ⟨rfl, rfl⟩ := quote
        rfl
      · rw [cutString_inside quote] at ends ⊢
        rw [List.cons_append, cutString_inside quote, ih _ ends]

theorem length_cutString_le (escaped : Bool) (text : List Char) :
    (cutString escaped text).2.length ≤ text.length := by
  have whole := congrArg List.length (cutString_append escaped text)
  rw [List.length_append] at whole
  omega

theorem length_cutBlock_le (text : List Char) : (cutBlock text).2.length ≤ text.length := by
  fun_induction cutBlock text with
  | case1 => exact Nat.le_refl _
  | case2 rest => exact Nat.le_add_right rest.length 2
  | case3 c rest notEnd cut ih => exact Nat.le_succ_of_le ih

/-- The text without its comments: a line comment ends in front of its line feed, a block
comment leaves the line feeds inside it. -/
def uncomment : List Char → List Char
  | [] => []
  | '/' :: '/' :: rest => uncomment (rest.dropWhile (· != '\n'))
  | '/' :: '*' :: rest =>
      (cutBlock rest).1.filter (· == '\n') ++ uncomment (cutBlock rest).2
  | c :: rest =>
      if c = '"' then c :: ((cutString false rest).1 ++ uncomment (cutString false rest).2)
      else c :: uncomment rest
termination_by text => text.length
decreasing_by
  · have := (List.dropWhile_sublist (l := rest) (· != '\n')).length_le
    simp only [List.length_cons]
    omega
  · have := length_cutBlock_le rest
    simp only [List.length_cons]
    omega
  · have := length_cutString_le false rest
    simp only [List.length_cons]
    omega
  · simp

def closes (text : List Char) : Bool :=
  (text.dropWhile Text.isBlank).head?.any isClosing

def uncomma : List Char → List Char
  | [] => []
  | c :: rest =>
      if c = '"' then c :: ((cutString false rest).1 ++ uncomma (cutString false rest).2)
      else if c = ',' ∧ closes rest = true then uncomma rest
      else c :: uncomma rest
termination_by text => text.length
decreasing_by
  · have := length_cutString_le false rest
    simp only [List.length_cons]
    omega
  · simp
  · simp

theorem closes_blank {c : Char} (blank : Text.isBlank c = true) (rest : List Char) :
    closes (c :: rest) = closes rest := by
  simp [closes, blank]

theorem closes_dense {c : Char} (dense : Text.isBlank c = false) (rest : List Char) :
    closes (c :: rest) = isClosing c := by
  simp [closes, dense]

theorem uncomma_kept {c : Char} (notQuote : c ≠ '"') (notComma : c ≠ ',') (rest : List Char) :
    uncomma (c :: rest) = c :: uncomma rest := by
  rw [uncomma, if_neg notQuote, if_neg fun both => notComma both.1]

theorem uncomma_comma (rest : List Char) :
    uncomma (',' :: rest) = if closes rest then uncomma rest else ',' :: uncomma rest := by
  simp [uncomma]

theorem uncomma_string (rest : List Char) {more : List Char}
    (ends : (cutString false rest).2 = [] → more = []) :
    uncomma ('"' :: ((cutString false rest).1 ++ more)) =
      '"' :: ((cutString false rest).1 ++ uncomma more) := by
  rw [uncomma, if_pos rfl, cutString_of_cut false rest ends]

section
variable {feeds : List Char} (all : ∀ c ∈ feeds, c = '\n') (rest : List Char)
include all

theorem closes_feeds : closes (feeds ++ rest) = closes rest := by
  induction feeds with
  | nil => rfl
  | cons c more ih =>
      obtain rfl := all c List.mem_cons_self
      rw [List.cons_append, closes_blank (by decide)]
      exact ih fun other later => all other (List.mem_cons_of_mem _ later)

theorem uncomma_feeds : uncomma (feeds ++ rest) = feeds ++ uncomma rest := by
  induction feeds with
  | nil => rfl
  | cons c more ih =>
      obtain rfl := all c List.mem_cons_self
      rw [List.cons_append, uncomma_kept (by decide) (by decide)]
      exact congrArg _ (ih fun other later => all other (List.mem_cons_of_mem _ later))

end

theorem strip_lineComment_drop (held : Held) (rest : List Char) :
    strip (.lineComment held) rest = strip (.code held) (rest.dropWhile (· != '\n')) := by
  induction rest with
  | nil => rfl
  | cons c tail ih =>
      by_cases feed : c = '\n'
      · simp only [feed, bne_self_eq_false, Bool.false_eq_true, not_false_eq_true,
          List.dropWhile_cons_of_neg, strip_blank (show Json.isBlank '\n' = true by decide)]
        rw [strip, if_pos rfl]
      · simp [feed, strip, ih]

theorem strip_blockComment_cut (held : Held) (rest : List Char) :
    strip (.blockComment held) rest =
      nowAll held ((cutBlock rest).1.filter (· == '\n')) ++
        strip (.code (laterAll held ((cutBlock rest).1.filter (· == '\n')))) (cutBlock rest).2 := by
  fun_induction cutBlock rest generalizing held with
  | case1 => simp [strip]
  | case2 rest => simp [strip_blockComment_closed]
  | case3 c rest notEnd cut ih =>
      have feeds : (c :: cut.1).filter (· == '\n') =
          [c].filter (· == '\n') ++ cut.1.filter (· == '\n') := List.filter_append [c] cut.1
      rw [feeds]
      exact strip_inside notEnd ih held

theorem strip_string_cut (escaped : Bool) (rest : List Char) :
    strip (.string escaped) rest =
      (cutString escaped rest).1 ++ strip (.code none) (cutString escaped rest).2 := by
  induction rest generalizing escaped with
  | nil => rfl
  | cons c tail ih =>
      by_cases quote : c = '"' ∧ escaped = false
      · obtain ⟨rfl, rfl⟩ := quote
        rfl
      · have goesOn : afterStringChar escaped c = .string (c == '\\' && !escaped) := by
          cases escaped with
          | true => simp [afterStringChar]
          | false =>
              have notQuote : c ≠ '"' := fun same => quote ⟨same, rfl⟩
              by_cases backslash : c = '\\' <;> simp [afterStringChar, backslash, notQuote]
        rw [strip, goesOn, ih, cutString_inside quote]
        rfl

def settled (held : Held) (rest : List Char) : List Char :=
  if closes rest then dropped held else kept held

@[simp] theorem settled_none (rest : List Char) : settled none rest = [] :=
  ite_self []

theorem settled_later (held : Held) (blanks rest : List Char) :
    nowAll held blanks ++ settled (laterAll held blanks) rest = settled held rest ++ blanks := by
  cases held <;> cases closed : closes rest <;>
    simp [settled, closed, nowAll, laterAll, kept, dropped]

theorem settled_dense {c : Char} (dense : Text.isBlank c = false) (notClosing : isClosing c = false)
    (held : Held) (rest : List Char) : settled held (c :: rest) = kept held := by
  rw [settled, closes_dense dense, notClosing]
  rfl

theorem isBlank_of_isClosing {c : Char} (closing : isClosing c = true) :
    Text.isBlank c = false := by
  simp only [isClosing, Bool.or_eq_true, beq_iff_eq] at closing
  rcases closing with rfl | rfl <;> decide

/-- One pass does what the two passes do, one after the other; held text comes out before,
with its comma only if the first thing left behind it does not close. -/
theorem strip_eq_passes (held : Held) (text : List Char) :
    strip (.code held) text =
      settled held (uncomment text) ++ uncomma (uncomment text) := by
  fun_induction uncomment text generalizing held with
  | case1 => simp [strip, settled, closes, uncomma]
  | case2 rest ih =>
      rw [strip_lineComment_opened, strip_lineComment_drop, ih]
  | case3 rest ih =>
      have feeds : ∀ c ∈ (cutBlock rest).1.filter (· == '\n'), c = '\n' := by
        intro c member
        exact eq_of_beq (List.mem_filter.mp member).2
      rw [strip_blockComment_opened, strip_blockComment_cut, ih, ← List.append_assoc, settled_later,
        uncomma_feeds feeds, settled, settled, closes_feeds feeds, List.append_assoc]
  | case4 rest line block ih =>
      have ends : (cutString false rest).2 = [] → uncomment (cutString false rest).2 = [] := by
        intro nothing
        rw [nothing, uncomment]
      rw [strip_quote, strip_string_cut, ih, settled_none, settled_dense (by decide) (by decide),
        uncomma_string rest ends]
      rfl
  | case5 c rest line block notQuote ih =>
      rw [strip_code line block, ih, ih, ih, settled_none, List.nil_append]
      by_cases comma : c = ','
      · subst comma
        rw [if_pos rfl, settled_dense (by decide) (by decide), uncomma_comma]
        cases closed : closes (uncomment rest) <;> simp [settled, closed, kept, dropped]
      · rw [if_neg comma, if_neg notQuote, uncomma_kept notQuote comma]
        cases closing : isClosing c with
        | true => simp [settled, closes_dense (isBlank_of_isClosing closing), closing]
        | false =>
            cases blank : Text.isBlank c with
            | true =>
                rw [if_neg Bool.false_ne_true, if_pos rfl, now_eq, later_eq, ← List.append_assoc,
                  settled_later, settled, settled, closes_blank blank, List.append_assoc]
                rfl
            | false => simp [settled_dense blank closing]

/-- The first text is the second one without some characters that are no line feeds. -/
structure Thinned (left text : List Char) : Prop where
  sublist : left.Sublist text
  feeds : left.count '\n' = text.count '\n'

namespace Thinned

theorem refl (text : List Char) : Thinned text text :=
  ⟨List.Sublist.refl text, rfl⟩

theorem trans {left middle text : List Char} (first : Thinned left middle)
    (second : Thinned middle text) : Thinned left text :=
  ⟨first.sublist.trans second.sublist, first.feeds.trans second.feeds⟩

theorem append {left text other more : List Char} (front : Thinned left text)
    (back : Thinned other more) : Thinned (left ++ other) (text ++ more) :=
  ⟨front.sublist.append back.sublist, by rw [List.count_append, List.count_append, front.feeds,
    back.feeds]⟩

theorem nothing {text : List Char} (unbroken : '\n' ∉ text) : Thinned [] text :=
  ⟨List.nil_sublist text, (List.count_eq_zero.mpr unbroken).symm⟩

theorem feedsOnly (text : List Char) : Thinned (text.filter (· == '\n')) text :=
  ⟨List.filter_sublist, List.count_filter (by decide)⟩

end Thinned

theorem thinned_cutBlock (text : List Char) :
    Thinned ((cutBlock text).1.filter (· == '\n') ++ (cutBlock text).2) text := by
  fun_induction cutBlock text with
  | case1 => exact Thinned.refl []
  | case2 rest =>
      have mark : Thinned [] ['*', '/'] := Thinned.nothing (by decide)
      exact mark.append (Thinned.refl rest)
  | case3 c rest notEnd cut ih =>
      have front : Thinned ([c].filter (· == '\n')) [c] := Thinned.feedsOnly [c]
      rw [← List.singleton_append, List.filter_append, List.append_assoc]
      exact front.append ih

theorem thinned_uncomment (text : List Char) : Thinned (uncomment text) text := by
  fun_induction uncomment text with
  | case1 => exact Thinned.refl []
  | case2 rest ih =>
      have comment : '\n' ∉ '/' :: '/' :: rest.takeWhile (· != '\n') := by
        intro member
        simp only [List.mem_cons, Char.reduceEq, false_or] at member
        simpa using List.all_eq_true.mp List.all_takeWhile _ member
      have whole := (Thinned.nothing comment).append ih
      rwa [List.nil_append, List.cons_append, List.cons_append,
        List.takeWhile_append_dropWhile] at whole
  | case3 rest ih =>
      have mark : Thinned [] ['/', '*'] := Thinned.nothing (by decide)
      have behind := ((Thinned.refl ((cutBlock rest).1.filter (· == '\n'))).append ih).trans
        (thinned_cutBlock rest)
      exact mark.append behind
  | case4 rest line block ih =>
      have behind := (Thinned.refl (cutString false rest).1).append ih
      rw [cutString_append] at behind
      exact (Thinned.refl ['"']).append behind
  | case5 c rest line block notQuote ih => exact (Thinned.refl [c]).append ih

theorem thinned_uncomma (text : List Char) : Thinned (uncomma text) text := by
  fun_induction uncomma text with
  | case1 => exact Thinned.refl []
  | case2 rest ih =>
      have behind := (Thinned.refl (cutString false rest).1).append ih
      rw [cutString_append] at behind
      exact (Thinned.refl ['"']).append behind
  | case3 c rest notQuote dropped ih =>
      have comma : Thinned [] [c] := Thinned.nothing (by simp [dropped.1])
      exact comma.append ih
  | case4 c rest notQuote kept ih => exact (Thinned.refl [c]).append ih

def numbered : Nat → List Char → List (Nat × Char)
  | _, [] => []
  | line, c :: rest => (line, c) :: numbered (if c = '\n' then line + 1 else line) rest

theorem Thinned.numbered {left text : List Char} (thinned : Thinned left text) (line : Nat) :
    (Jsonc.numbered line left).Sublist (Jsonc.numbered line text) := by
  obtain ⟨sublist, feeds⟩ := thinned
  induction sublist generalizing line with
  | slnil => exact List.Sublist.refl []
  | @cons left text c sublist ih =>
      -- The character that is taken out is no line feed, for then one would be missing.
      have atMost := sublist.count_le '\n'
      have notFeed : c ≠ '\n' := by
        rintro rfl
        rw [List.count_cons_self] at feeds
        omega
      rw [List.count_cons_of_ne notFeed] at feeds
      rw [Jsonc.numbered, if_neg notFeed]
      exact (ih line feeds).cons _
  | @cons_cons left text c sublist ih =>
      have behind : left.count '\n' = text.count '\n' := by
        rw [List.count_cons, List.count_cons] at feeds
        exact Nat.add_right_cancel feeds
      exact (ih _ behind).cons_cons _

end ActionReprint.Jsonc
