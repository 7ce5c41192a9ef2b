import Mathlib.Data.List.DropRight
import Interlock.Types.TypeExpr
import Interlock.Proofs.Text.Occurrence

/-! Reading what was written. A type is written as its name, its arguments in angle brackets and
one pair of brackets for each dimension, with any blanks between these tokens. The reader gives
the type back. -/

namespace Interlock.Types.TypeExpr

open Interlock.Text

/-! ## Written types -/

/-- A word that can be a segment of a name. -/
def IsWord (w : String) : Prop := w ≠ "" ∧ ∀ c ∈ w.toList, isIdentChar c = true

-- the letters of the word are tried, and not all characters, which are finitely many too
instance (w : String) : Decidable (IsWord w) :=
  @instDecidableAnd _ _ inferInstance (List.decidableBAll _ w.toList)

/-- The types that can be written: the wildcard, and names of words that do not start with a
modifier, with arguments that can be written. -/
inductive Printable : TypeExpr → Prop
  | wildcard : Printable (plain "?")
  | named {name : String} {args : List TypeExpr} {dims : Nat}
      (words : ∀ w ∈ split '.' name, IsWord w) (first : firstPiece '.' name ∉ modifiers)
      (parts : ∀ arg ∈ args, Printable arg) : Printable (mk name args dims)

mutual

/-- The tokens of a written type. Blanks may stand around the points of a name as well, and
between the two brackets of a dimension. -/
def tokens : TypeExpr → List String
  | mk name args dims => (split '.' name).intersperse "." ++
      (argTokens args ++ (List.replicate dims ["[", "]"]).flatten)

def argTokens : List TypeExpr → List String
  | [] => []
  | arg :: args => "<" :: (arg.tokens ++ moreTokens args)

/-- The tokens that follow an argument. -/
def moreTokens : List TypeExpr → List String
  | [] => [">"]
  | arg :: args => "," :: (arg.tokens ++ moreTokens args)

end

/-- Nothing but blanks. -/
def Blank (cs : List Char) : Prop := ∀ c ∈ cs, isBlank c = true

instance (cs : List Char) : Decidable (Blank cs) := List.decidableBAll _ cs

/-- The text consists of the tokens, with any blanks before each of them, and of `rest`. -/
inductive Writes (rest : List Char) : List String → List Char → Prop
  | done : Writes rest [] rest
  | token {gap : List Char} {w : String} {ws : List String} {text : List Char} (blank : Blank gap)
      (later : Writes rest ws text) : Writes rest (w :: ws) (gap ++ (w.toList ++ text))

/-- The text consists of the tokens, with any blanks before, after and between them. -/
def Spaced (ws : List String) (text : List Char) : Prop := ∃ gap, Blank gap ∧ Writes gap ws text

/-! ## Blanks -/

theorem isIdentChar_of_isBlank {c : Char} (h : isBlank c = true) : isIdentChar c = false := by
  have hcodes : ∀ n ∈ blankRanges.flatMap fun r => List.range' r.1 (r.2 + 1 - r.1),
      isIdentChar (Char.ofNat n) = false := by decide +kernel
  obtain ⟨r, hr, hc⟩ := List.any_eq_true.mp h
  have hrange : r.1 ≤ c.toNat ∧ c.toNat ≤ r.2 := by simpa using hc
  have hmem : c.toNat ∈ blankRanges.flatMap fun r => List.range' r.1 (r.2 + 1 - r.1) :=
    List.mem_flatMap.mpr ⟨r, hr, List.mem_range'_1.mpr (by omega)⟩
  have hword := hcodes _ hmem
  rwa [Char.ofNat_toNat] at hword

theorem isBlank_of_isIdentChar {c : Char} (h : isIdentChar c = true) : isBlank c = false := by
  cases hb : isBlank c with
  | false => rfl
  | true => rw [isIdentChar_of_isBlank hb] at h; cases h

theorem skipBlanks_of_blank {gap : List Char} (h : Blank gap) (cs : List Char) :
    skipBlanks (gap ++ cs) = skipBlanks cs :=
  List.dropWhile_append_of_pos h

theorem skipBlanks_cons {c : Char} (h : isBlank c = false) (cs : List Char) :
    skipBlanks (c :: cs) = c :: cs :=
  List.dropWhile_cons_of_neg (by simp [h])

theorem length_skipBlanks_le (cs : List Char) : (skipBlanks cs).length ≤ cs.length :=
  (List.dropWhile_suffix _).length_le

@[simp] theorem skipBlanks_skipBlanks (cs : List Char) :
    skipBlanks (skipBlanks cs) = skipBlanks cs :=
  List.dropWhile_idempotent _ _

/-- The next character that is not a blank. -/
def next? (cs : List Char) : Option Char := (skipBlanks cs).head?

theorem eat_congr {cs cs' : List Char} (h : skipBlanks cs = skipBlanks cs') (c : Char) :
    eat c cs = eat c cs' := by
  rw [eat, eat, h]

theorem eat_eq_none {c : Char} {cs : List Char} (h : next? cs ≠ some c) : eat c cs = none := by
  rw [next?] at h
  rw [eat]
  cases hcs : skipBlanks cs with
  | nil => rfl
  | cons d rest =>
    rw [hcs, List.head?_cons, Ne, Option.some_inj] at h
    exact if_neg h

/-- A text whose next character does not go on with a word does not start with such a
character. -/
theorem not_isIdentChar_of_next? {cs : List Char} (h : ∀ c ∈ next? cs, isIdentChar c = false) :
    ∀ c ∈ cs.head?, isIdentChar c = false := by
  cases cs with
  | nil => simp
  | cons c cs =>
    simp only [List.head?_cons, Option.mem_some_iff]
    rintro _ rfl
    cases hb : isBlank c with
    | true => exact isIdentChar_of_isBlank hb
    | false => exact h c (by simp [next?, skipBlanks_cons hb])

theorem takeWhile_word {w later : List Char} (hw : ∀ c ∈ w, isIdentChar c = true)
    (hends : ∀ c ∈ later.head?, isIdentChar c = false) :
    (w ++ later).takeWhile isIdentChar = w := by
  rw [List.takeWhile_append_of_pos hw]
  cases later with
  | nil => simp
  | cons c cs => rw [List.takeWhile_cons_of_neg (by simp [hends c rfl]), List.append_nil]

theorem dropWhile_word {w later : List Char} (hw : ∀ c ∈ w, isIdentChar c = true)
    (hends : ∀ c ∈ later.head?, isIdentChar c = false) :
    (w ++ later).dropWhile isIdentChar = later := by
  rw [List.dropWhile_append_of_pos hw]
  cases later with
  | nil => rfl
  | cons c cs => exact List.dropWhile_cons_of_neg (by simp [hends c rfl])

theorem ident_eq_none {cs : List Char} (h : ∀ c ∈ next? cs, isIdentChar c = false) :
    ident cs = none := by
  rw [next?] at h
  rw [ident]
  cases hcs : skipBlanks cs with
  | nil => rfl
  | cons c rest =>
    rw [hcs] at h
    rw [List.takeWhile_cons_of_neg (by simp [h c rfl])]

/-! ## Tokens of a text -/

theorem Writes.append {rest mid text : List Char} {ws vs : List String} (h : Writes mid ws text)
    (h' : Writes rest vs mid) : Writes rest (ws ++ vs) text := by
  induction h with
  | done => exact h'
  | token blank _ ih => exact .token blank ih

/-- Any blanks can be chosen. -/
theorem writes_spread {parts : List (List Char × String)} (h : ∀ part ∈ parts, Blank part.1)
    (rest : List Char) :
    Writes rest (parts.map (·.2)) (parts.flatMap (fun part => part.1 ++ part.2.toList) ++ rest) := by
  induction parts with
  | nil => exact .done
  | cons part parts ih =>
    rw [List.forall_mem_cons] at h
    rw [List.map_cons, List.flatMap_cons, List.append_assoc, List.append_assoc]
    exact .token h.1 (ih h.2)

theorem writes_append {rest text : List Char} {ws vs : List String} :
    Writes rest (ws ++ vs) text → ∃ mid, Writes mid ws text ∧ Writes rest vs mid := by
  induction ws generalizing text with
  | nil => exact fun h => ⟨text, .done, h⟩
  | cons w ws ih =>
    rintro (_ | ⟨blank, later⟩)
    obtain ⟨mid, hws, hvs⟩ := ih later
    exact ⟨mid, .token blank hws, hvs⟩

/-- The next character is the first one of the first token. -/
theorem Writes.skipBlanks_eq {rest text : List Char} {w : String} {ws : List String}
    (h : Writes rest (w :: ws) text) {c : Char} (hw : w.toList.head? = some c)
    (hc : isBlank c = false) :
    ∃ later, skipBlanks text = w.toList ++ later ∧ Writes rest ws later := by
  obtain _ | ⟨blank, later⟩ := h
  obtain ⟨cs, hcs⟩ := List.head?_eq_some_iff.mp hw
  refine ⟨_, ?_, later⟩
  rw [skipBlanks_of_blank blank, hcs, List.cons_append, skipBlanks_cons hc]

theorem Writes.next?_eq {rest text : List Char} {w : String} {ws : List String}
    (h : Writes rest (w :: ws) text) {c : Char} (hw : w.toList.head? = some c)
    (hc : isBlank c = false) : next? text = some c := by
  obtain ⟨later, htext, -⟩ := h.skipBlanks_eq hw hc
  rw [next?, htext, List.head?_append, hw, Option.some_or]

theorem Writes.length_le {rest text : List Char} {ws : List String} (h : Writes rest ws text) :
    rest.length ≤ text.length := by
  induction h with
  | done => exact Nat.le_refl _
  | token _ _ ih =>
    rw [List.length_append, List.length_append]
    omega

/-- Reading a token of one character. -/
theorem Writes.eat_eq {rest text : List Char} {w : String} {ws : List String}
    (h : Writes rest (w :: ws) text) {c : Char} (hw : w.toList = [c]) (hc : isBlank c = false) :
    ∃ later, eat c text = some later ∧ skipBlanks text = c :: later ∧ Writes rest ws later ∧
      later.length < text.length := by
  obtain ⟨later, htext, hlater⟩ := h.skipBlanks_eq (by rw [hw]; rfl) hc
  rw [hw, List.singleton_append] at htext
  have hlength := length_skipBlanks_le text
  rw [htext, List.length_cons] at hlength
  exact ⟨later, by rw [eat, htext]; exact if_pos rfl, htext, hlater, by omega⟩

theorem IsWord.exists_head {w : String} (h : IsWord w) :
    ∃ c, w.toList.head? = some c ∧ isIdentChar c = true := by
  obtain ⟨hne, hchars⟩ := h
  cases hw : w.toList with
  | nil => exact absurd (String.toList_eq_nil_iff.mp hw) hne
  | cons c cs => exact ⟨c, rfl, hchars c (by simp [hw])⟩

theorem Writes.next?_word {rest text : List Char} {w : String} {ws : List String}
    (h : Writes rest (w :: ws) text) (hw : IsWord w) :
    ∃ c, next? text = some c ∧ isIdentChar c = true := by
  obtain ⟨c, hhead, hc⟩ := hw.exists_head
  exact ⟨c, h.next?_eq hhead (isBlank_of_isIdentChar hc), hc⟩

/-- Reading a word that ends where the next token does not go on with it. -/
theorem Writes.ident_eq {rest text : List Char} {w : String} {ws : List String}
    (h : Writes rest (w :: ws) text) (hw : IsWord w)
    (hends : ∀ later, Writes rest ws later → ∀ c ∈ next? later, isIdentChar c = false) :
    ∃ later, ident text = some (w, later) ∧ Writes rest ws later ∧
      later.length < text.length := by
  obtain ⟨c, hhead, hc⟩ := hw.exists_head
  obtain ⟨later, htext, hlater⟩ := h.skipBlanks_eq hhead (isBlank_of_isIdentChar hc)
  obtain ⟨cs, hcs⟩ := List.head?_eq_some_iff.mp hhead
  have hstop := not_isIdentChar_of_next? (hends later hlater)
  have hlength := length_skipBlanks_le text
  rw [htext, List.length_append, hcs, List.length_cons] at hlength
  refine ⟨later, ?_, hlater, by omega⟩
  rw [ident, htext, takeWhile_word hw.2 hstop, dropWhile_word hw.2 hstop, hcs]
  simp [← hcs]

/-! ## Tokens of a type -/

theorem intersperse_cons (sep w : String) (ws : List String) :
    (w :: ws).intersperse sep = w :: ws.flatMap fun v => [sep, v] := by
  induction ws generalizing w with
  | nil => rfl
  | cons v ws ih => rw [List.intersperse_cons_cons, ih, List.flatMap_cons]; rfl

theorem Printable.tokens_eq_cons {t : TypeExpr} (h : t.Printable) :
    ∃ w ws, t.tokens = w :: ws ∧ (w = "?" ∨ IsWord w) := by
  cases h with
  | wildcard => exact ⟨"?", [], by decide +kernel, .inl rfl⟩
  | @named name args dims words =>
    obtain ⟨pieces, hpieces, -⟩ := exists_split_eq '.' name
    rw [hpieces] at words
    rw [tokens, hpieces, intersperse_cons, List.cons_append]
    exact ⟨_, _, rfl, .inr (words _ List.mem_cons_self)⟩

/-! ## The reader -/

/-- What can follow a type: another argument, the end of the arguments, or nothing. -/
def closing : List (Option Char) := [none, some ',', some '>']

/-- What can follow a word of a name. -/
def following : List (Option Char) := some '.' :: some '<' :: some '[' :: closing

/-- The type is read back from its tokens, whatever follows it. -/
def Reads (t : TypeExpr) : Prop :=
  ∀ {fuel : Nat} {rest text : List Char}, Writes rest t.tokens text → next? rest ∈ closing →
    3 * text.length < fuel →
    ∃ after, read fuel text = some (t, after) ∧ skipBlanks after = skipBlanks rest

theorem next?_of_dims {rest text : List Char} {dims : Nat}
    (h : Writes rest (List.replicate dims ["[", "]"]).flatten text) (hrest : next? rest ∈ closing) :
    next? text ∈ some '[' :: closing := by
  cases dims with
  | zero =>
    cases h
    exact List.mem_cons_of_mem _ hrest
  | succ dims =>
    rw [h.next?_eq (c := '[') (by simp) (by decide)]
    exact List.mem_cons_self

theorem next?_of_args {mid text : List Char} {args : List TypeExpr}
    (h : Writes mid (argTokens args) text) (hmid : next? mid ∈ some '[' :: closing) :
    next? text ∈ some '<' :: some '[' :: closing := by
  cases args with
  | nil =>
    cases h
    exact List.mem_cons_of_mem _ hmid
  | cons arg args =>
    rw [argTokens] at h
    rw [h.next?_eq (c := '<') (by simp) (by decide)]
    exact List.mem_cons_self

theorem next?_of_pieces {mid text : List Char} {pieces : List String}
    (h : Writes mid (pieces.flatMap fun w => [".", w]) text)
    (hmid : next? mid ∈ some '<' :: some '[' :: closing) : next? text ∈ following := by
  cases pieces with
  | nil =>
    cases h
    exact List.mem_cons_of_mem _ hmid
  | cons w pieces =>
    rw [List.flatMap_cons, List.cons_append] at h
    rw [h.next?_eq (c := '.') (by simp) (by decide)]
    exact List.mem_cons_self

theorem not_isIdentChar_of_following {o : Option Char} (h : o ∈ following) :
    ∀ c ∈ o, isIdentChar c = false := by
  have hall : following.all (fun o => o.all fun c => !isIdentChar c) = true := by decide
  have hnone := List.all_eq_true.mp hall o h
  rintro c hc
  simpa [Option.mem_def.mp hc] using hnone

theorem not_isIdentChar_of_closing {o : Option Char} (h : o ∈ closing) :
    ∀ c ∈ o, isIdentChar c = false :=
  not_isIdentChar_of_following (by simp only [following, List.mem_cons, h, or_true])

theorem skipCommas_eq {cs : List Char} (h : next? cs ≠ some ',') (fuel : Nat) :
    skipCommas cs fuel = cs := by
  cases fuel with
  | zero => rfl
  | succ fuel => rw [skipCommas, eat_eq_none h]

theorem suffixes_eq {rest : List Char} (hrest : next? rest ∈ closing) {dims fuel k : Nat}
    {text cs : List Char} (h : Writes rest (List.replicate dims ["[", "]"]).flatten text)
    (hcs : skipBlanks cs = skipBlanks text) (hfuel : (skipBlanks text).length ≤ fuel) :
    ∃ after, suffixes fuel k cs = some (k + dims, after) ∧
      skipBlanks after = skipBlanks rest := by
  induction dims generalizing fuel k text cs with
  | zero =>
    cases h
    cases fuel with
    | zero => exact ⟨cs, rfl, hcs⟩
    | succ fuel =>
      refine ⟨skipBlanks rest, ?_, skipBlanks_skipBlanks rest⟩
      rw [suffixes, hcs]
      rw [next?] at hrest
      generalize skipBlanks rest = later at hrest
      cases later with
      | nil => rfl
      | cons c later =>
        have hc : c = ',' ∨ c = '>' := by simpa [closing] using hrest
        obtain rfl | rfl := hc
        · rfl
        · rfl
  | succ dims ih =>
    rw [List.replicate_succ, List.flatten_cons, List.cons_append, List.cons_append,
      List.nil_append] at h
    obtain ⟨inside, -, htext, hinside, -⟩ := h.eat_eq (c := '[') (by simp) (by decide)
    obtain ⟨later, heat, -, hlater, hlength⟩ := hinside.eat_eq (c := ']') (by simp) (by decide)
    have hnext : next? inside ≠ some ',' := by
      rw [hinside.next?_eq (c := ']') (by simp) (by decide)]
      decide
    rw [htext, List.length_cons] at hfuel
    obtain ⟨fuel, rfl⟩ : ∃ n, fuel = n + 1 := ⟨fuel - 1, by omega⟩
    obtain ⟨after, hafter, hblanks⟩ := ih (k := k + 1) hlater rfl
      (Nat.le_trans (length_skipBlanks_le later) (by omega : later.length ≤ fuel))
    refine ⟨after, ?_, hblanks⟩
    rw [suffixes, hcs, htext]
    simp only [skipCommas_eq hnext, heat]
    rw [hafter, Nat.add_assoc, Nat.add_comm 1 dims]

/-- Arguments are read up to the closing bracket. -/
theorem readArgs_eq {rest : List Char} {args : List TypeExpr} {arg : TypeExpr}
    (hargs : ∀ a ∈ arg :: args, Reads a) {fuel : Nat} {text : List Char}
    (h : Writes rest (arg.tokens ++ moreTokens args) text) (hfuel : 3 * text.length + 1 < fuel) :
    readArgs fuel text = some (arg :: args, rest) := by
  induction args generalizing arg fuel text with
  | nil =>
    obtain ⟨mid, harg, hmore⟩ := writes_append h
    obtain ⟨fuel, rfl⟩ : ∃ n, fuel = n + 1 := ⟨fuel - 1, by omega⟩
    rw [moreTokens] at hmore
    have hmid : next? mid ∈ closing := by
      rw [hmore.next?_eq (c := '>') (by simp) (by decide)]
      decide
    obtain ⟨after, hread, hafter⟩ := hargs arg (by simp) harg hmid (by omega : _ < fuel)
    obtain ⟨later, heat, -, hlater, -⟩ := hmore.eat_eq (c := '>') (by simp) (by decide)
    cases hlater
    rw [readArgs, hread]
    simp [eat_congr hafter, heat]
  | cons next args ih =>
    obtain ⟨mid, harg, hmore⟩ := writes_append h
    obtain ⟨fuel, rfl⟩ : ∃ n, fuel = n + 1 := ⟨fuel - 1, by omega⟩
    rw [moreTokens] at hmore
    have hmid : next? mid = some ',' := hmore.next?_eq (by simp) (by decide)
    obtain ⟨after, hread, hafter⟩ := hargs arg (by simp) harg (by rw [hmid]; decide)
      (by omega : _ < fuel)
    obtain ⟨later, heat, -, hlater, hlength⟩ := hmore.eat_eq (c := ',') (by simp) (by decide)
    have hopen : eat '>' mid = none := eat_eq_none (by rw [hmid]; decide)
    have hmidLength := harg.length_le
    have hrest := ih (fun a ha => hargs a (List.mem_cons_of_mem _ ha)) hlater
      (by omega : _ < fuel)
    rw [readArgs, hread]
    simp [eat_congr hafter, hopen, heat, hrest]

/-- A name ends where no point follows. -/
theorem readSegments_args {args : List TypeExpr} (hprint : ∀ arg ∈ args, Printable arg)
    (hargs : ∀ arg ∈ args, Reads arg) {fuel : Nat} {name : String} {mid text : List Char}
    (h : Writes mid (argTokens args) text) (hmid : next? mid ∈ some '[' :: closing)
    (hfuel : 3 * text.length < fuel) :
    readSegments fuel name [] text = some (name, args, skipBlanks mid) := by
  obtain ⟨fuel, rfl⟩ : ∃ n, fuel = n + 1 := ⟨fuel - 1, by omega⟩
  have hends : ∀ later, skipBlanks mid ≠ '.' :: later := by
    intro later heq
    rw [next?, heq] at hmid
    revert hmid
    simp [closing]
  cases args with
  | nil =>
    rw [argTokens] at h
    cases h
    have hopen : eat '<' mid = none := eat_eq_none fun heq => by
      rw [heq] at hmid
      revert hmid
      decide
    rw [readSegments, hopen]
    simp only [Option.bind_eq_bind, Option.bind_some]
    split
    · next heq => exact absurd heq (hends _)
    · next heq => exact absurd heq (hends _)
    · rfl
  | cons arg args =>
    rw [argTokens] at h
    obtain ⟨inside, heat, -, hinside, hlength⟩ := h.eat_eq (c := '<') (by simp) (by decide)
    have hclose : eat '>' inside = none := by
      obtain ⟨w, ws, hws, hw⟩ := (hprint arg List.mem_cons_self).tokens_eq_cons
      rw [hws, List.cons_append] at hinside
      refine eat_eq_none fun heq => ?_
      obtain rfl | hw := hw
      · rw [hinside.next?_eq (c := '?') (by simp) (by decide)] at heq
        revert heq
        decide
      · obtain ⟨c, hc, hident⟩ := hinside.next?_word hw
        rw [hc, Option.some_inj] at heq
        rw [heq] at hident
        revert hident
        decide
    have hread := readArgs_eq hargs hinside (by omega : _ < fuel)
    rw [readSegments, heat]
    simp only [hclose, hread, Option.bind_eq_bind, Option.bind_some]
    split
    · next heq => exact absurd heq (hends _)
    · next heq => exact absurd heq (hends _)
    · rfl

/-- The segments of a name are joined by points. -/
theorem readSegments_words {pieces : List String} (hwords : ∀ w ∈ pieces, IsWord w) {fuel : Nat}
    (name : String) {mid text : List Char}
    (h : Writes mid (pieces.flatMap fun w => [".", w]) text)
    (hmid : ∀ c ∈ next? mid, isIdentChar c = false) (hfuel : 3 * text.length < fuel) :
    ∃ fuel', readSegments fuel name [] text = readSegments fuel'
        (pieces.foldl (fun front piece => front ++ String.singleton '.' ++ piece) name) [] mid ∧
      3 * mid.length < fuel' := by
  induction pieces generalizing fuel name text with
  | nil =>
    cases h
    exact ⟨fuel, rfl, hfuel⟩
  | cons w pieces ih =>
    rw [List.flatMap_cons, List.cons_append, List.cons_append, List.nil_append] at h
    obtain ⟨fuel, rfl⟩ : ∃ n, fuel = n + 1 := ⟨fuel - 1, by omega⟩
    have hopen : eat '<' text = none := eat_eq_none (by
      rw [h.next?_eq (c := '.') (by simp) (by decide)]
      decide)
    obtain ⟨after, -, htext, hafter, hlength⟩ := h.eat_eq (c := '.') (by simp) (by decide)
    have hw := hwords w List.mem_cons_self
    obtain ⟨later, hident, hlater, hshorter⟩ := hafter.ident_eq hw (by
      intro later hlater
      cases pieces with
      | nil => cases hlater; exact hmid
      | cons v pieces =>
        rw [List.flatMap_cons, List.cons_append] at hlater
        rw [hlater.next?_eq (c := '.') (by simp) (by decide)]
        simp only [Option.mem_some_iff]
        rintro _ rfl
        decide)
    -- no second point follows: that would be the mark of variable arity
    have hpoint : ∀ more, after ≠ '.' :: more := by
      rintro more rfl
      obtain ⟨c, hc, hchar⟩ := hafter.next?_word hw
      rw [next?, skipBlanks_cons (by decide), List.head?_cons, Option.some_inj] at hc
      rw [← hc] at hchar
      revert hchar
      decide
    obtain ⟨fuel', hread, hfuel'⟩ := ih (fun v hv => hwords v (List.mem_cons_of_mem _ hv))
      (name ++ String.singleton '.' ++ w) hlater (by omega : _ < fuel)
    refine ⟨fuel', ?_, hfuel'⟩
    rw [List.foldl_cons, ← hread, readSegments, hopen]
    simp only [Option.bind_eq_bind, Option.bind_some]
    split
    · next heq => exact absurd (List.cons.inj (htext.symm.trans heq)).2 (hpoint _)
    · next heq =>
      rw [← (List.cons.inj (htext.symm.trans heq)).2, hident]
      rfl
    · next hne => exact absurd htext (hne after)

theorem skipModifiers_eq {words : List String} {word : String × List Char}
    (h : word.1 ∉ words) : skipModifiers words word = some word := by
  induction words with
  | nil => rfl
  | cons m words ih =>
    rw [List.mem_cons, not_or] at h
    rw [skipModifiers, if_neg h.1, ih h.2]

theorem skipGlobal_eq {word : String × List Char} (h : next? word.2 ≠ some ':') :
    skipGlobal word = some word := by
  rw [skipGlobal, eat_eq_none h]
  split <;> rfl

theorem Printable.reads {t : TypeExpr} (h : t.Printable) : t.Reads := by
  induction h with
  | wildcard =>
    intro fuel rest text h hrest hfuel
    obtain ⟨fuel, rfl⟩ : ∃ n, fuel = n + 1 := ⟨fuel - 1, by omega⟩
    have htokens : (plain "?").tokens = ["?"] := by decide +kernel
    rw [htokens] at h
    obtain ⟨later, heat, -, hlater, -⟩ := h.eat_eq (c := '?') (by simp) (by decide)
    cases hlater
    have hident : ident rest = none := ident_eq_none (not_isIdentChar_of_closing hrest)
    rw [read, heat]
    simp only [hident]
    exact ⟨rest, rfl, rfl⟩
  | @named name args dims words first parts ih =>
    intro fuel rest text h hrest hfuel
    obtain ⟨fuel, rfl⟩ : ∃ n, fuel = n + 1 := ⟨fuel - 1, by omega⟩
    obtain ⟨pieces, hpieces, hjoin⟩ := exists_split_eq '.' name
    rw [hpieces, List.forall_mem_cons] at words
    rw [tokens, hpieces, intersperse_cons, List.cons_append] at h
    have hopen : eat '?' text = none := eat_eq_none fun heq => by
      obtain ⟨c, hc, hchar⟩ := h.next?_word words.1
      rw [hc, Option.some_inj] at heq
      rw [heq] at hchar
      revert hchar
      decide
    -- the texts after the first word, after the name and after the arguments
    obtain ⟨afterWord, hword, hlater, hshorter⟩ := h.ident_eq words.1 fun later hlater => by
      obtain ⟨afterName, hname, hlater⟩ := writes_append hlater
      obtain ⟨afterArgs, hargs, hdims⟩ := writes_append hlater
      exact not_isIdentChar_of_following
        (next?_of_pieces hname (next?_of_args hargs (next?_of_dims hdims hrest)))
    obtain ⟨afterName, hname, hlater⟩ := writes_append hlater
    obtain ⟨afterArgs, hargs, hdims⟩ := writes_append hlater
    have hafterArgs := next?_of_dims hdims hrest
    have hafterName := next?_of_args hargs hafterArgs
    have hglobal : next? afterWord ≠ some ':' := fun heq => by
      have hmem := next?_of_pieces hname hafterName
      rw [heq] at hmem
      revert hmem
      decide
    obtain ⟨fuel', hsegments, hfuel'⟩ := readSegments_words words.2 _ hname
      (not_isIdentChar_of_following (List.mem_cons_of_mem _ hafterName)) (by omega : _ < fuel)
    rw [hjoin, readSegments_args parts ih hargs hafterArgs hfuel'] at hsegments
    obtain ⟨after, hsuffixes, hafter⟩ := suffixes_eq hrest (k := 0) hdims
      (skipBlanks_skipBlanks afterArgs) (Nat.le_refl _)
    refine ⟨after, ?_, hafter⟩
    rw [read, hopen]
    simp only [hword, Option.bind_eq_bind, Option.bind_some]
    rw [skipModifiers_eq first, Option.bind_some, skipGlobal_eq hglobal]
    simp only [Option.bind_some, hsegments, hsuffixes, Nat.zero_add]

/-! ## Whole texts -/

theorem dropAnnotations_eq {cs : List Char} (h : '@' ∉ cs) :
    dropAnnotations .outside cs = cs := by
  induction cs with
  | nil => rfl
  | cons c cs ih =>
    rw [List.mem_cons, not_or] at h
    rw [dropAnnotations, if_neg (Ne.symm h.1), ih h.2]

theorem not_mem_of_blank {gap : List Char} (h : Blank gap) : '@' ∉ gap := fun hmem => by
  have hblank := h _ hmem
  revert hblank
  decide

theorem Writes.not_mem {rest text : List Char} {ws : List String} (h : Writes rest ws text)
    (hws : ∀ w ∈ ws, '@' ∉ w.toList) (hrest : '@' ∉ rest) : '@' ∉ text := by
  induction h with
  | done => exact hrest
  | token blank later ih =>
    rw [List.forall_mem_cons] at hws
    rw [List.mem_append, List.mem_append, not_or, not_or]
    exact ⟨not_mem_of_blank blank, hws.1, ih hws.2⟩

theorem not_mem_moreTokens {args : List TypeExpr}
    (h : ∀ arg ∈ args, ∀ w ∈ arg.tokens, '@' ∉ w.toList) :
    ∀ w ∈ moreTokens args, '@' ∉ w.toList := by
  induction args with
  | nil => simp [moreTokens]
  | cons arg args ih =>
    rw [List.forall_mem_cons] at h
    simp only [moreTokens, List.forall_mem_cons, List.forall_mem_append]
    exact ⟨by decide, h.1, ih h.2⟩

theorem Printable.not_mem_tokens {t : TypeExpr} (h : t.Printable) :
    ∀ w ∈ t.tokens, '@' ∉ w.toList := by
  induction h with
  | wildcard => decide +kernel
  | @named name args dims words first parts ih =>
    obtain ⟨pieces, hpieces, -⟩ := exists_split_eq '.' name
    have hword : ∀ {w}, IsWord w → '@' ∉ w.toList := fun hw hmem => by
      have hchar := hw.2 _ hmem
      revert hchar
      decide
    rw [hpieces, List.forall_mem_cons] at words
    rw [tokens, hpieces, intersperse_cons]
    simp only [List.cons_append, List.forall_mem_cons, List.forall_mem_append]
    refine ⟨hword words.1, ?_, ?_, ?_⟩
    · intro w hw
      obtain ⟨piece, hpiece, hw⟩ := List.mem_flatMap.mp hw
      obtain rfl | rfl : w = "." ∨ w = piece := by simpa using hw
      · decide
      · exact hword (words.2 _ hpiece)
    · cases args with
      | nil => simp [argTokens]
      | cons arg args =>
        rw [List.forall_mem_cons] at ih
        simp only [argTokens, List.forall_mem_cons, List.forall_mem_append]
        exact ⟨by decide, ih.1, not_mem_moreTokens ih.2⟩
    · intro w hw
      obtain ⟨brackets, hbrackets, hw⟩ := List.mem_flatten.mp hw
      have hplain : ∀ v ∈ ["[", "]"], '@' ∉ v.toList := by decide
      exact hplain w ((List.mem_replicate.mp hbrackets).2 ▸ hw)

/-- A written type is read back, whatever blanks stand before, between and after its tokens. -/
theorem parse?_of_spaced {t : TypeExpr} (h : t.Printable) {text : String}
    (htext : Spaced t.tokens text.toList) : parse? text = some t := by
  obtain ⟨gap, hgap, hwrites⟩ := htext
  have hend : skipBlanks gap = [] := List.dropWhile_eq_nil_iff.mpr hgap
  have hplain := hwrites.not_mem h.not_mem_tokens (not_mem_of_blank hgap)
  have hfuel : 3 * text.toList.length < 4 * (text.toList.length + 1) := by omega
  obtain ⟨after, hread, hafter⟩ := h.reads hwrites (by rw [next?, hend]; decide) hfuel
  rw [parse?]
  simp only [dropAnnotations_eq hplain, hread, Option.bind_eq_bind, Option.bind_some, hafter, hend]
  rfl

theorem parse?_spaced_map :
    let t := mk "util.Map" [plain "?", mk "List" [mk "int" [] 1] 0] 2
    let text := " util. Map <?, List<int[ ]>\t> [] [] "
    t.Printable ∧ Spaced t.tokens text.toList ∧ parse? text = some t := by
  intro t text
  have hint : (mk "int" [] 1).Printable := .named (by decide +kernel) (by decide +kernel) nofun
  have hlist : (mk "List" [mk "int" [] 1] 0).Printable :=
    .named (by decide +kernel) (by decide +kernel) (by simpa using hint)
  have hprint : t.Printable :=
    .named (by decide +kernel) (by decide +kernel) (by simpa using ⟨.wildcard, hlist⟩)
  have hspaced : Spaced t.tokens text.toList := by
    let parts := [([' '], "util"), ([], "."), ([' '], "Map"), ([' '], "<"), ([], "?"), ([], ","),
      ([' '], "List"), ([], "<"), ([], "int"), ([], "["), ([' '], "]"), ([], ">"), (['\t'], ">"),
      ([' '], "["), ([], "]"), ([' '], "["), ([], "]")]
    have htokens : t.tokens = parts.map (·.2) := by decide +kernel
    have htext : text.toList = parts.flatMap (fun part => part.1 ++ part.2.toList) ++ [' '] := by
      decide +kernel
    rw [htokens, htext]
    exact ⟨[' '], by decide, writes_spread (by decide) [' ']⟩
  exact ⟨hprint, hspaced, parse?_of_spaced hprint hspaced⟩

end Interlock.Types.TypeExpr
