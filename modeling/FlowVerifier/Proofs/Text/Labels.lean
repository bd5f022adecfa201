import FlowVerifier.Text.Label
import Mathlib

/-!
# Labels stay between their quotes and lose nothing

A label is written character by character.  The same comes out if each of the special
characters is replaced in the whole text, one after the other, although the later
replacements then meet the backslashes of the earlier ones (`label_eq_replaced`).

* `even_escapes` and `odd_escapes`: a label ends in an even number of backslashes, and in front
  of a quote inside it stands an odd number.  So the quote behind a label is the first that
  ends it.
* `unlabel` reads a label again, and only carriage returns are missing
  (`unlabel_flatMap`).
* `label_contained` puts this together.
-/

namespace FlowVerifier
namespace Text

/-! ## Replacements in the whole text -/

/-- Puts some characters in place of every occurrence of one. -/
def replaceChar (c : Char) (new l : List Char) : List Char :=
  l.flatMap fun d => if d = c then new else [d]

/-- The replacements that make a text a label, in their order. -/
def labelReplacements : List (Char × List Char) :=
  [('\\', ['\\', '\\']), ('"', ['\\', '"']), ('\r', []), ('\n', ['\\', 'l']),
    ('<', ['\\', '<']), ('>', ['\\', '>']),
    (Char.ofNat 0x7B, ['\\', Char.ofNat 0x7B]), (Char.ofNat 0x7D, ['\\', Char.ofNat 0x7D])]

/-- Carries out replacements, one after the other. -/
def replaceAll (steps : List (Char × List Char)) (l : List Char) : List Char :=
  steps.foldl (fun l step => replaceChar step.1 step.2 l) l

/-- Replacements treat every character by itself. -/
theorem replaceAll_eq_flatMap (steps : List (Char × List Char)) (l : List Char) :
    replaceAll steps l = l.flatMap fun c => replaceAll steps [c] := by
  induction steps generalizing l with
  | nil => simp [replaceAll]
  | cons step steps ih =>
      have hstep : ∀ m, replaceAll (step :: steps) m =
          replaceAll steps (replaceChar step.1 step.2 m) := fun _ => rfl
      simp only [hstep]
      rw [ih, replaceChar, List.flatMap_assoc]
      refine List.flatMap_congr fun c _ => ?_
      rw [ih (replaceChar _ _ [c])]
      simp [replaceChar]

/-- What becomes of a single character. -/
theorem replaceAll_singleton (c : Char) : replaceAll labelReplacements [c] = labelChar c := by
  by_cases hspecial : c ∈ labelReplacements.map Prod.fst
  · simp only [labelReplacements, List.map_cons, List.map_nil, List.mem_cons, List.not_mem_nil,
      or_false] at hspecial
    rcases hspecial with rfl | rfl | rfl | rfl | rfl | rfl | rfl | rfl <;> decide
  · simp only [labelReplacements, List.map_cons, List.map_nil, List.mem_cons, List.not_mem_nil,
      or_false, not_or] at hspecial
    obtain ⟨hslash, hquote, hreturn, hline, hless, hgreater, hopen, hclose⟩ := hspecial
    have hbrace : ∀ n, (Char.ofNat n).toNat = n → c ≠ Char.ofNat n → c.toNat ≠ n := by
      intro n hn hne heq
      exact hne (Char.ext (UInt32.toNat_inj.1 (heq.trans hn.symm)))
    simp [replaceAll, labelReplacements, replaceChar, labelChar, hslash, hquote, hreturn, hline,
      hless, hgreater, hopen, hclose, hbrace 0x7B rfl hopen, hbrace 0x7D rfl hclose]

/-- **A label is made by replacements** in the whole text. -/
theorem label_eq_replaced (s : String) :
    label s = String.ofList (replaceAll labelReplacements s.toList) := by
  rw [replaceAll_eq_flatMap, label]
  simp only [replaceAll_singleton]

/-! ## Backslashes -/

/-- How many backslashes stand at the end. -/
def escapes (l : List Char) : Nat := (l.reverse.takeWhile (· == '\\')).length

theorem escapes_concat (l : List Char) (c : Char) :
    escapes (l ++ [c]) = if c = '\\' then escapes l + 1 else 0 := by
  unfold escapes
  rw [List.reverse_concat, List.takeWhile_cons]
  by_cases hc : c = '\\' <;> simp [hc]

/-- A character is dropped, written alone, or written behind a backslash. -/
theorem labelChar_cases (c : Char) :
    labelChar c = [] ∨
      (∃ d, labelChar c = [d] ∧ d ≠ '"' ∧ d ≠ '\\' ∧ d ≠ '\n' ∧ d ≠ '\r') ∨
      ∃ d, labelChar c = ['\\', d] ∧ d ≠ '\n' ∧ d ≠ '\r' := by
  unfold labelChar
  split
  · exact .inr (.inr ⟨'l', rfl, by decide, by decide⟩)
  · rename_i hline
    split
    · exact .inl rfl
    · rename_i hreturn
      split
      · exact .inr (.inr ⟨c, rfl, hline, hreturn⟩)
      · rename_i hplain
        simp only [Bool.or_eq_true, decide_eq_true_eq, not_or] at hplain
        obtain ⟨⟨⟨⟨⟨hslash, hquote⟩, -⟩, -⟩, -⟩, -⟩ := hplain
        exact .inr (.inl ⟨c, rfl, hquote, hslash, hline, hreturn⟩)

/-- **The end of a label**: no backslash is left that takes the meaning of what follows. -/
theorem even_escapes (l : List Char) : Even (escapes (l.flatMap labelChar)) := by
  induction l using List.reverseRecOn with
  | nil => exact ⟨0, rfl⟩
  | append_singleton l c ih =>
      rw [List.flatMap_append, List.flatMap_singleton]
      rcases labelChar_cases c with h | ⟨d, h, -, hslash, -⟩ | ⟨d, h, -⟩
      · rwa [h, List.append_nil]
      · rw [h, escapes_concat, if_neg hslash]
        exact ⟨0, rfl⟩
      · rw [h, List.append_cons, escapes_concat, escapes_concat, if_pos rfl]
        split
        · exact ih.add_one.add_one
        · exact ⟨0, rfl⟩

/-- A quote that is written for a character stands behind a backslash. -/
theorem odd_escapes_labelChar (l : List Char) {c : Char} {front after : List Char}
    (h : labelChar c = front ++ '"' :: after) : Odd (escapes (l.flatMap labelChar ++ front)) := by
  rcases labelChar_cases c with hc | ⟨d, hc, hquote, -⟩ | ⟨d, hc, -⟩ <;> rw [hc] at h
  · exact absurd h (by simp)
  · cases front with
    | nil => exact absurd (List.cons.inj h).1 hquote
    | cons x front => exact absurd (List.cons.inj h).2 (by simp)
  · cases front with
    | nil => exact absurd (List.cons.inj h).1 (by decide)
    | cons x front =>
        obtain ⟨rfl, hrest⟩ := List.cons.inj h
        cases front with
        | nil =>
            rw [escapes_concat, if_pos rfl]
            exact (even_escapes l).add_one
        | cons y front => exact absurd (List.cons.inj hrest).2 (by simp)

/-- **A quote inside a label** has lost its meaning. -/
theorem odd_escapes (l : List Char) {before after : List Char}
    (h : l.flatMap labelChar = before ++ '"' :: after) : Odd (escapes before) := by
  induction l using List.reverseRecOn generalizing after with
  | nil => simp at h
  | append_singleton l c ih =>
      rw [List.flatMap_append, List.flatMap_singleton, List.append_eq_append_iff] at h
      rcases h with ⟨front, rfl, hchar⟩ | ⟨tail, hfront, htail⟩
      -- the quote is among the characters written for `c`
      · exact odd_escapes_labelChar l hchar
      · cases tail with
        | nil =>
            rw [List.append_nil] at hfront
            rw [← hfront, ← List.append_nil (l.flatMap labelChar)]
            exact odd_escapes_labelChar l htail.symm
        | cons x tail =>
            obtain ⟨rfl, -⟩ := List.cons.inj htail
            exact ih hfront

/-- A label has no line breaks. -/
theorem not_mem_flatMap_labelChar (l : List Char) :
    '\n' ∉ l.flatMap labelChar ∧ '\r' ∉ l.flatMap labelChar := by
  have hchar : ∀ c, '\n' ∉ labelChar c ∧ '\r' ∉ labelChar c := by
    intro c
    rcases labelChar_cases c with h | ⟨d, h, -, -, hline, hreturn⟩ | ⟨d, h, hline, hreturn⟩
    · simp [h]
    · simp [h, hline.symm, hreturn.symm]
    · simp [h, hline.symm, hreturn.symm]
  simp only [List.mem_flatMap, not_exists, not_and]
  exact ⟨fun c _ => (hchar c).1, fun c _ => (hchar c).2⟩

/-! ## Reading a label again -/

/-- The text of a label. -/
def unlabel : List Char → List Char
  | '\\' :: c :: rest => (if c = 'l' then '\n' else c) :: unlabel rest
  | c :: rest => c :: unlabel rest
  | [] => []

theorem unlabel_cons {c : Char} (hc : c ≠ '\\') (rest : List Char) :
    unlabel (c :: rest) = c :: unlabel rest := by
  rw [unlabel.eq_def]
  split
  · rename_i heq
    exact absurd (List.cons.inj heq).1 hc
  · rename_i heq
    cases heq
    rfl
  · rename_i heq
    cases heq

/-- A character that is not dropped is read as what it was. -/
theorem unlabel_labelChar {c : Char} (hc : c ≠ '\r') (rest : List Char) :
    unlabel (labelChar c ++ rest) = c :: unlabel rest := by
  unfold labelChar
  rw [if_neg hc]
  split
  · rename_i hline
    simp [unlabel, hline]
  · split
    · rename_i hspecial
      have hl : c ≠ 'l' := by
        rintro rfl
        exact absurd hspecial (by decide)
      simp [unlabel, hl]
    · rename_i hplain
      simp only [Bool.or_eq_true, decide_eq_true_eq, not_or] at hplain
      exact unlabel_cons hplain.1.1.1.1.1 rest

/-- **A label can be read again**, but for carriage returns. -/
theorem unlabel_flatMap (l : List Char) :
    unlabel (l.flatMap labelChar) = l.filter (· ≠ '\r') := by
  induction l with
  | nil => rfl
  | cons c l ih =>
      rw [List.flatMap_cons]
      by_cases hc : c = '\r'
      · subst hc
        rw [List.filter_cons_of_neg (by decide), ← ih]
        rfl
      · rw [unlabel_labelChar hc, ih, List.filter_cons_of_pos (by simpa using hc)]

/-! ## Labels -/

/-- **Labels stay between their quotes and lose nothing.**  A label has no line breaks, every
quote in it stands behind an odd number of backslashes, and it does not end in an odd number of
them.  Texts without carriage returns have the same label only if they are the same.  All this
holds of the label although it can be made by replacements in the whole text, of which the later
ones meet the backslashes of the earlier ones. -/
theorem label_contained :
    (∀ s : String, label s = String.ofList (replaceAll labelReplacements s.toList)) ∧
      (∀ s : String,
        '\n' ∉ (label s).toList ∧ '\r' ∉ (label s).toList ∧
          (∀ before after, (label s).toList = before ++ '"' :: after → Odd (escapes before)) ∧
          ¬ Odd (escapes (label s).toList)) ∧
      ∀ s t : String, '\r' ∉ s.toList → '\r' ∉ t.toList → label s = label t → s = t := by
  have htoList : ∀ s : String, (label s).toList = s.toList.flatMap labelChar :=
    fun s => String.toList_ofList
  refine ⟨label_eq_replaced, fun s => ?_, fun s t hs ht heq => ?_⟩
  · rw [htoList, Nat.not_odd_iff_even]
    obtain ⟨hline, hreturn⟩ := not_mem_flatMap_labelChar s.toList
    exact ⟨hline, hreturn, fun before after => odd_escapes s.toList, even_escapes s.toList⟩
  · have hread : ∀ u : String, '\r' ∉ u.toList → unlabel (label u).toList = u.toList := by
      intro u hu
      rw [htoList, unlabel_flatMap, List.filter_eq_self]
      intro c hc
      simpa using fun h : c = '\r' => hu (h ▸ hc)
    refine String.toList_injective ?_
    rw [← hread s hs, ← hread t ht, heq]

/-- The text of an instruction as a label. -/
example : label "s = \"a\\b\"" = "s = \\\"a\\\\b\\\"" := by decide

end Text
end FlowVerifier
