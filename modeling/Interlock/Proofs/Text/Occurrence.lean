import Mathlib.Data.List.Infix
import Interlock.Text.Pieces

/-! Occurrences of a mark in a text. A mark whose first character is not repeated in it cannot
overlap itself, so a text is cut at the first mark in one way only. A text is its pieces with the
separator between them. -/

namespace Interlock.Text

theorem dropStartChars?_eq_some_iff {start text rest : List Char} :
    dropStartChars? start text = some rest ↔ text = start ++ rest := by
  constructor
  · intro h
    induction start generalizing text with
    | nil => simpa [dropStartChars?] using h
    | cons p start ih =>
      cases text with
      | nil => simp [dropStartChars?] at h
      | cons c text =>
        simp only [dropStartChars?] at h
        split at h
        · next heq => rw [ih h, heq, List.cons_append]
        · cases h
  · rintro rfl
    exact dropStartChars?_append start rest

theorem isSome_dropStartChars?_iff {start text : List Char} :
    (dropStartChars? start text).isSome = true ↔ start <+: text := by
  rw [Option.isSome_iff_exists]
  exact exists_congr fun rest => dropStartChars?_eq_some_iff.trans eq_comm

theorem containsChars_iff {part text : List Char} :
    containsChars part text = true ↔ part <:+: text := by
  induction text with
  | nil => simp [containsChars]
  | cons c text ih =>
    rw [containsChars, Bool.or_eq_true, isSome_dropStartChars?_iff, ih, List.infix_cons_iff]

theorem contains_iff {part text : String} :
    contains part text = true ↔ part.toList <:+: text.toList :=
  containsChars_iff

/-- What stands before the first mark of a text, and what follows it, are determined by the
text. -/
theorem eq_of_append_mark_eq {first : Char} {mark a b s s' : List Char} (hfirst : first ∉ mark)
    (ha : ¬ first :: mark <:+: a) (hb : ¬ first :: mark <:+: b)
    (h : a ++ first :: mark ++ s = b ++ first :: mark ++ s') : a = b ∧ s = s' := by
  -- the longer of the two texts before the mark would contain it, or the mark would overlap itself
  have hshorter : ∀ {a d s s' : List Char}, ¬ first :: mark <:+: a ++ d →
      first :: mark ++ s = d ++ (first :: mark ++ s') → d = [] := by
    intro a d s s' hfree heq
    cases d with
    | nil => rfl
    | cons c d =>
      exfalso
      rcases List.append_eq_append_iff.mp heq with ⟨e, he, -⟩ | ⟨e, he, hrest⟩
      · exact hfree ⟨a, e, by rw [he, List.append_assoc]⟩
      · cases e with
        | nil => exact hfree ⟨a, [], by simp [he]⟩
        | cons x e =>
          simp only [List.cons_append, List.cons.injEq] at he hrest
          exact hfirst (by rw [he.2, hrest.1]; simp)
  rw [List.append_assoc, List.append_assoc] at h
  rcases List.append_eq_append_iff.mp h with ⟨d, rfl, hd⟩ | ⟨d, rfl, hd⟩
  · obtain rfl := hshorter hb hd
    exact ⟨(List.append_nil a).symm, by simpa using hd⟩
  · obtain rfl := hshorter ha hd
    exact ⟨List.append_nil b, by simpa using hd.symm⟩

/-- What stands before and after the last mark of a text is determined by the text. -/
theorem eq_of_append_last_mark_eq {mark : Char} {a b s s' : String} (hs : mark ∉ s.toList)
    (hs' : mark ∉ s'.toList)
    (h : a ++ String.singleton mark ++ s = b ++ String.singleton mark ++ s') : a = b ∧ s = s' := by
  have hmarked : ∀ {s : String}, mark ∉ s.toList → ¬[mark] <:+: s.toList.reverse := by
    rintro s hs ⟨front, back, heq⟩
    refine hs (List.mem_reverse.mp ?_)
    rw [← heq]
    simp
  have hchars := congrArg (fun t : String => t.toList.reverse) h
  simp only [String.toList_append, String.toList_singleton, List.reverse_append,
    List.reverse_singleton, ← List.append_assoc] at hchars
  obtain ⟨hback, hfront⟩ :=
    eq_of_append_mark_eq (List.not_mem_nil (a := mark)) (hmarked hs) (hmarked hs') hchars
  exact ⟨String.toList_inj.mp (List.reverse_inj.mp hfront),
    String.toList_inj.mp (List.reverse_inj.mp hback)⟩

/-- The digits of a number. -/
theorem isDigit_of_mem_toString {n : Nat} {c : Char} (h : c ∈ (toString n).toList) :
    c.isDigit = true := by
  rw [Nat.toString_eq_ofList_toDigits, String.toList_ofList] at h
  exact Nat.isDigit_of_mem_toDigits (by decide) (by decide) h

/-! ## Pieces -/

theorem splitChars_eq_cons (sep : Char → Bool) (cs : List Char) :
    ∃ piece pieces, splitChars sep cs = piece :: pieces := by
  induction cs with
  | nil => exact ⟨_, _, rfl⟩
  | cons c cs ih =>
    obtain ⟨piece, pieces, h⟩ := ih
    rw [splitChars, h]
    split
    · exact ⟨_, _, rfl⟩
    · exact ⟨_, _, rfl⟩

/-- A text is its pieces, the separator between them. -/
theorem eq_of_splitChars_eq {sep : Char} {cs piece : List Char} {pieces : List (List Char)}
    (h : splitChars (· == sep) cs = piece :: pieces) :
    cs = piece ++ pieces.flatMap (sep :: ·) := by
  induction cs generalizing piece pieces with
  | nil => cases h; rfl
  | cons c cs ih =>
    obtain ⟨first, more, hcs⟩ := splitChars_eq_cons (· == sep) cs
    rw [splitChars, hcs] at h
    split at h
    · next hc =>
      cases h
      rw [eq_of_beq hc, List.nil_append, List.flatMap_cons, List.cons_append, ← ih hcs]
    · cases h
      rw [List.cons_append, ← ih hcs]

theorem takeWhile_of_splitChars_eq {sep : Char} {cs piece : List Char} {pieces : List (List Char)}
    (h : splitChars (· == sep) cs = piece :: pieces) : cs.takeWhile (· != sep) = piece := by
  induction cs generalizing piece pieces with
  | nil => cases h; rfl
  | cons c cs ih =>
    obtain ⟨first, more, hcs⟩ := splitChars_eq_cons (· == sep) cs
    rw [splitChars, hcs] at h
    split at h
    · next hc => cases h; simp [eq_of_beq hc]
    · next hc => cases h; simpa [bne, hc] using ih hcs

/-- The first piece of a text, and the text as its pieces one after another. -/
theorem exists_split_eq (sep : Char) (text : String) :
    ∃ pieces, split sep text = firstPiece sep text :: pieces ∧
      pieces.foldl (fun front piece => front ++ String.singleton sep ++ piece)
        (firstPiece sep text) = text := by
  obtain ⟨piece, pieces, h⟩ := splitChars_eq_cons (· == sep) text.toList
  have hfirst : firstPiece sep text = String.ofList piece := by
    rw [firstPiece, takeWhile_of_splitChars_eq h]
  have hjoin : ∀ (pieces : List (List Char)) (front : String),
      (pieces.map String.ofList).foldl (fun front piece => front ++ String.singleton sep ++ piece)
        front = front ++ String.ofList (pieces.flatMap (sep :: ·)) := by
    intro pieces
    induction pieces with
    | nil => simp
    | cons piece pieces ih =>
      intro front
      rw [List.map_cons, List.foldl_cons, ih]
      apply String.toList_inj.mp
      simp
  refine ⟨pieces.map String.ofList, by rw [split, h, List.map_cons, hfirst], ?_⟩
  rw [hjoin, hfirst, ← String.ofList_append, ← eq_of_splitChars_eq h, String.ofList_toList]

end Interlock.Text
