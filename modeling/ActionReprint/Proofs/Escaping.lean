import ActionReprint.Literal
import ActionReprint.Proofs.Point

/-!
What escaping does to the lines of an image: it adds no line feed and takes none away,
and it makes no line narrower.
-/

namespace ActionReprint

namespace Text

theorem mem_fixedHex {width value : Nat} {c : Char} (member : c ∈ fixedHex width value) :
    ∃ digit : Fin 16, c = hexDigit digit.val := by
  induction width generalizing value with
  | zero => simp [fixedHex] at member
  | succ width ih =>
      rcases List.mem_append.mp member with high | low
      · exact ih high
      · exact ⟨⟨value % 16, Nat.mod_lt _ (by decide)⟩, List.mem_singleton.mp low⟩

theorem visible_of_mem_fixedHex {width value : Nat} {c : Char} (member : c ∈ fixedHex width value) :
    ' ' < c := by
  obtain ⟨digit, rfl⟩ := mem_fixedHex member
  have visible : ∀ v : Fin 16, ' ' < hexDigit v.val := by decide
  exact visible digit

end Text

namespace Literal

theorem escapeChar_feed (style : EscapeStyle) : escapeChar style '\n' = ['\n'] := rfl

theorem escapeChar_of_plain (style : EscapeStyle) {c : Char} (plain : isPlain c = true) :
    escapeChar style c = [c] :=
  if_pos plain

theorem escapeChar_cases (style : EscapeStyle) {c : Char} (escaped : isPlain c = false) :
    c.toNat ≤ 0xFFFF ∧ escapeChar style c = escapeUnit c.toNat ∨
      0xFFFF < c.toNat ∧
        (style = .surrogates ∧
            escapeChar style c =
              escapeUnit (leadingUnit c.toNat) ++ escapeUnit (trailingUnit c.toNat) ∨
          style = .long ∧ escapeChar style c = escapeScalar c.toNat) := by
  by_cases low : c.toNat ≤ 0xFFFF
  · exact Or.inl ⟨low, by simp [escapeChar, escaped, low]⟩
  · refine Or.inr ⟨Nat.lt_of_not_le low, ?_⟩
    cases style <;> simp [escapeChar, escaped, low]

theorem escapeChar_of_escaped (style : EscapeStyle) {c : Char} (escaped : isPlain c = false) :
    ∃ digits, escapeChar style c = '\\' :: digits := by
  rcases escapeChar_cases style escaped with ⟨_, unit⟩ | ⟨_, ⟨_, pair⟩ | ⟨_, scalar⟩⟩
  · exact ⟨_, unit⟩
  · exact ⟨_, pair⟩
  · exact ⟨_, scalar⟩

theorem visible_of_mem_escapeChar {style : EscapeStyle} {c d : Char} (escaped : isPlain c = false)
    (member : d ∈ escapeChar style c) : ' ' < d := by
  have numeral : ∀ marker width value, ' ' < marker →
      d ∈ '\\' :: marker :: Text.fixedHex width value → ' ' < d := by
    intro marker width value visible inside
    rcases List.mem_cons.mp inside with rfl | tail
    · decide
    · rcases List.mem_cons.mp tail with rfl | digit
      · exact visible
      · exact Text.visible_of_mem_fixedHex digit
  rcases escapeChar_cases style escaped with ⟨_, unit⟩ | ⟨_, ⟨_, pair⟩ | ⟨_, scalar⟩⟩
  · exact numeral _ _ _ (by decide) (unit ▸ member)
  · rw [pair, List.mem_append] at member
    rcases member with leading | trailing
    · exact numeral _ _ _ (by decide) leading
    · exact numeral _ _ _ (by decide) trailing
  · exact numeral _ _ _ (by decide) (scalar ▸ member)

theorem feed_notMem_escapeChar (style : EscapeStyle) {c : Char} (other : c ≠ '\n') :
    '\n' ∉ escapeChar style c := by
  cases plain : isPlain c with
  | true => simpa [escapeChar_of_plain style plain] using Ne.symm other
  | false =>
      intro member
      exact absurd (visible_of_mem_escapeChar plain member) (by decide)

theorem length_escapeChar_pos (style : EscapeStyle) (c : Char) :
    1 ≤ (escapeChar style c).length := by
  cases plain : isPlain c with
  | true => simp [escapeChar_of_plain style plain]
  | false =>
      obtain ⟨digits, shape⟩ := escapeChar_of_escaped style plain
      simp [shape]

theorem escapeChars_cons (style : EscapeStyle) (c : Char) (rest : List Char) :
    escapeChars style (c :: rest) = escapeChar style c ++ escapeChars style rest :=
  List.flatMap_cons

theorem escapeChars_concat (style : EscapeStyle) (image : List Char) (c : Char) :
    escapeChars style (image ++ [c]) = escapeChars style image ++ escapeChar style c := by
  simp [escapeChars]

theorem count_feed_escapeChars (style : EscapeStyle) (image : List Char) :
    (escapeChars style image).count '\n' = image.count '\n' := by
  induction image using List.reverseRecOn with
  | nil => rfl
  | append_singleton image c ih =>
      rw [escapeChars_concat, List.count_append, List.count_append, ih]
      by_cases feed : c = '\n'
      · rw [feed, escapeChar_feed]
      · rw [List.count_eq_zero.mpr (feed_notMem_escapeChar style feed)]
        simp [feed]

theorem lastWidth_le_escapeChars (style : EscapeStyle) (image : List Char) :
    lastWidth image ≤ lastWidth (escapeChars style image) := by
  induction image using List.reverseRecOn with
  | nil => exact Nat.le_refl _
  | append_singleton image c ih =>
      rw [escapeChars_concat, lastWidth_concat, lastWidth_append]
      -- Only a line feed ends a line, and nothing else is written as one.
      by_cases feed : c = '\n'
      · simp [feed]
      · rw [if_neg feed, if_neg (feed_notMem_escapeChar style feed)]
        exact Nat.add_le_add ih (length_escapeChar_pos style c)

end Literal

end ActionReprint
