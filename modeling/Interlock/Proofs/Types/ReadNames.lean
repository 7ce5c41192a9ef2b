import Interlock.Proofs.Types.Reading

/-! The name that a text is read with. Outside angle brackets a text holds the name, the marks after
it and blanks. A name that stands plainly before the first angle bracket is the whole name of the
type if and only if no point follows outside the brackets. -/

namespace Interlock.Types.TypeExpr

open Interlock.Text

variable {fuel : Nat} {cs rest : List Char} {text : String} {t : TypeExpr}

/-! ## Inside and outside of angle brackets -/

/-- What stands outside angle brackets, `depth` of which are open. -/
def outside : Nat → List Char → List Char
  | _, [] => []
  | depth, c :: cs =>
    if c = '<' then outside (depth + 1) cs
    else if c = '>' then outside (depth - 1) cs
    else if depth = 0 then c :: outside 0 cs
    else outside depth cs

/-- No angle bracket. -/
def Flat (cs : List Char) : Prop := ∀ c ∈ cs, c ≠ '<' ∧ c ≠ '>'

theorem outside_succ_append {used : List Char} (h : Flat used) (depth : Nat) (cs : List Char) :
    outside (depth + 1) (used ++ cs) = outside (depth + 1) cs := by
  induction used with
  | nil => rfl
  | cons c used ih =>
    obtain ⟨hopen, hclose⟩ := h c List.mem_cons_self
    rw [List.cons_append, outside, if_neg hopen, if_neg hclose, if_neg (Nat.succ_ne_zero depth)]
    exact ih fun x hx => h x (List.mem_cons_of_mem _ hx)

theorem outside_zero_append {used : List Char} (h : Flat used) (cs : List Char) :
    outside 0 (used ++ cs) = used ++ outside 0 cs := by
  induction used with
  | nil => rfl
  | cons c used ih =>
    obtain ⟨hopen, hclose⟩ := h c List.mem_cons_self
    rw [List.cons_append, outside, if_neg hopen, if_neg hclose, if_pos rfl,
      ih fun x hx => h x (List.mem_cons_of_mem _ hx), List.cons_append]

theorem outside_open (depth : Nat) (cs : List Char) :
    outside depth ('<' :: cs) = outside (depth + 1) cs := by
  rw [outside, if_pos rfl]

theorem outside_close (depth : Nat) (cs : List Char) :
    outside (depth + 1) ('>' :: cs) = outside depth cs := by
  rw [outside, if_neg (by decide), if_pos rfl, Nat.add_sub_cancel]

/-- The reader has passed text without angle brackets. -/
def Passes (cs rest : List Char) : Prop := ∃ used, Flat used ∧ cs = used ++ rest

namespace Passes

theorem refl (cs : List Char) : Passes cs cs := ⟨[], fun _ h => absurd h List.not_mem_nil, rfl⟩

theorem trans {mid : List Char} (h : Passes cs mid) (h' : Passes mid rest) : Passes cs rest := by
  obtain ⟨used, hused, rfl⟩ := h
  obtain ⟨more, hmore, rfl⟩ := h'
  refine ⟨used ++ more, ?_, (List.append_assoc _ _ _).symm⟩
  intro c hc
  rcases List.mem_append.mp hc with hc | hc
  · exact hused c hc
  · exact hmore c hc

theorem outside_succ (h : Passes cs rest) (depth : Nat) :
    outside (depth + 1) cs = outside (depth + 1) rest := by
  obtain ⟨used, hused, rfl⟩ := h
  exact outside_succ_append hused depth rest

theorem of_cons {c : Char} (hopen : c ≠ '<') (hclose : c ≠ '>') (cs : List Char) :
    Passes (c :: cs) cs := by
  refine ⟨[c], ?_, rfl⟩
  intro x hx
  rw [List.mem_singleton.mp hx]
  exact ⟨hopen, hclose⟩

end Passes

theorem Blank.not_mem {gap : List Char} (h : Blank gap) {c : Char} (hc : isBlank c = false) :
    c ∉ gap := by
  intro hmem
  rw [h c hmem] at hc
  cases hc

theorem flat_of_blank {gap : List Char} (h : Blank gap) : Flat gap := by
  intro c hc
  constructor
  · rintro rfl
    exact h.not_mem (by decide) hc
  · rintro rfl
    exact h.not_mem (by decide) hc

theorem exists_gap (cs : List Char) : ∃ gap, Blank gap ∧ cs = gap ++ skipBlanks cs :=
  ⟨cs.takeWhile isBlank, fun _ hc => List.mem_takeWhile_imp hc,
    (List.takeWhile_append_dropWhile).symm⟩

theorem passes_skipBlanks (cs : List Char) : Passes cs (skipBlanks cs) := by
  obtain ⟨gap, hgap, hcs⟩ := exists_gap cs
  exact ⟨gap, flat_of_blank hgap, hcs⟩

theorem skipBlanks_of_eat {c : Char} (h : eat c cs = some rest) : skipBlanks cs = c :: rest := by
  unfold eat at h
  split at h
  · next d later heq =>
    split at h
    · next hd =>
      obtain rfl := Option.some.inj h
      rw [heq, hd]
    · cases h
  · cases h

theorem passes_of_eat {c : Char} (hopen : c ≠ '<') (hclose : c ≠ '>') (h : eat c cs = some rest) :
    Passes cs rest :=
  (passes_skipBlanks cs).trans (skipBlanks_of_eat h ▸ .of_cons hopen hclose rest)

theorem outside_of_eat_open (h : eat '<' cs = some rest) (depth : Nat) :
    outside (depth + 1) cs = outside (depth + 2) rest := by
  rw [(passes_skipBlanks cs).outside_succ, skipBlanks_of_eat h, outside_open]

theorem outside_of_eat_close (h : eat '>' cs = some rest) (depth : Nat) :
    outside (depth + 1) cs = outside depth rest := by
  rw [(passes_skipBlanks cs).outside_succ, skipBlanks_of_eat h, outside_close]

theorem ident_eq_some {w : String} (h : ident cs = some (w, rest)) :
    w.toList = (skipBlanks cs).takeWhile isIdentChar ∧
      rest = (skipBlanks cs).dropWhile isIdentChar ∧ w ≠ "" := by
  unfold ident at h
  dsimp only at h
  split at h
  · cases h
  · next c word heq =>
    obtain ⟨rfl, rfl⟩ := Prod.mk.inj (Option.some.inj h)
    refine ⟨by rw [String.toList_ofList, heq], rfl, ?_⟩
    intro hempty
    have hlist := congrArg String.toList hempty
    rw [String.toList_ofList] at hlist
    cases hlist

theorem passes_of_ident {w : String} (h : ident cs = some (w, rest)) : Passes cs rest := by
  obtain ⟨-, rfl, -⟩ := ident_eq_some h
  refine (passes_skipBlanks cs).trans ⟨_, ?_, (List.takeWhile_append_dropWhile).symm⟩
  intro c hc
  have hident := List.mem_takeWhile_imp hc
  constructor
  · rintro rfl
    exact absurd hident (by decide)
  · rintro rfl
    exact absurd hident (by decide)

theorem passes_of_skipModifiers {ms : List String} {word word' : String × List Char}
    (h : skipModifiers ms word = some word') : Passes word.2 word'.2 := by
  induction ms generalizing word with
  | nil =>
    obtain rfl := Option.some.inj h
    exact .refl _
  | cons m ms ih =>
    rw [skipModifiers] at h
    split at h
    · obtain ⟨next, hnext, h⟩ := Option.bind_eq_some_iff.mp h
      exact (passes_of_ident hnext).trans (ih h)
    · exact ih h

theorem passes_of_skipGlobal {word word' : String × List Char} (h : skipGlobal word = some word') :
    Passes word.2 word'.2 := by
  unfold skipGlobal at h
  split at h
  · split at h
    · obtain rfl := Option.some.inj h
      exact .refl _
    · next afterFirst hfirst =>
      have hpass := passes_of_eat (by decide) (by decide) hfirst
      split at h
      · obtain rfl := Option.some.inj h
        exact hpass
      · next afterSecond hsecond =>
        exact hpass.trans ((passes_of_eat (by decide) (by decide) hsecond).trans
          (passes_of_ident h))
  · obtain rfl := Option.some.inj h
    exact .refl _

theorem passes_skipCommas (cs : List Char) (fuel : Nat) : Passes cs (skipCommas cs fuel) := by
  induction fuel generalizing cs with
  | zero => exact .refl cs
  | succ fuel ih =>
    rw [skipCommas]
    split
    · next rest heat => exact (passes_of_eat (by decide) (by decide) heat).trans (ih rest)
    · exact .refl cs

theorem passes_of_suffixes {dims dims' : Nat} (h : suffixes fuel dims cs = some (dims', rest)) :
    Passes cs rest := by
  induction fuel generalizing dims cs with
  | zero =>
    obtain ⟨-, rfl⟩ := Prod.mk.inj (Option.some.inj h)
    exact .refl cs
  | succ fuel ih =>
    have hblanks := passes_skipBlanks cs
    rw [suffixes] at h
    split at h
    · next later heq =>
      rw [heq] at hblanks
      split at h
      · next after heat =>
        exact hblanks.trans ((Passes.of_cons (by decide) (by decide) later).trans
          ((passes_skipCommas later _).trans
            ((passes_of_eat (by decide) (by decide) heat).trans (ih h))))
      · cases h
    · next later heq =>
      rw [heq] at hblanks
      exact hblanks.trans ((Passes.of_cons (by decide) (by decide) later).trans (ih h))
    · next later heq =>
      rw [heq] at hblanks
      exact hblanks.trans ((Passes.of_cons (by decide) (by decide) later).trans (ih h))
    · next later heq =>
      rw [heq] at hblanks
      split at h
      · next after hpoints =>
        obtain ⟨mid, hmid, hafter⟩ := Option.bind_eq_some_iff.mp hpoints
        exact hblanks.trans ((Passes.of_cons (by decide) (by decide) later).trans
          ((passes_of_eat (by decide) (by decide) hmid).trans
            ((passes_of_eat (by decide) (by decide) hafter).trans (ih h))))
      · cases h
    · obtain ⟨-, rfl⟩ := Prod.mk.inj (Option.some.inj h)
      exact hblanks

/-! ## What the reader can have done -/

/-- A type is a wildcard, what a bounded wildcard stands for, or a name with what follows it. -/
theorem read_eq_some (h : read (fuel + 1) cs = some (t, rest)) :
    (∃ inside, eat '?' cs = some inside ∧ ((t = plain "?" ∧ rest = inside) ∨
      ∃ word after, ident inside = some (word, after) ∧ read fuel after = some (t, rest))) ∨
    (eat '?' cs = none ∧ ∃ word word' first name args dims afterName, ident cs = some word ∧
      skipModifiers modifiers word = some word' ∧ skipGlobal word' = some first ∧
      readSegments fuel first.1 [] first.2 = some (name, args, afterName) ∧
      suffixes afterName.length 0 afterName = some (dims, rest) ∧ t = mk name args dims) := by
  rw [read] at h
  split at h
  · next inside hmark =>
    left
    refine ⟨inside, hmark, ?_⟩
    split at h
    · next word after hident =>
      split at h
      · exact .inr ⟨word, after, hident, h⟩
      · cases h
        exact .inl ⟨rfl, rfl⟩
    · cases h
      exact .inl ⟨rfl, rfl⟩
  · next hmark =>
    right
    simp only [Option.bind_eq_bind, Option.bind_eq_some_iff] at h
    obtain ⟨word, hident, word', hmodifiers, first, hglobal, ⟨name, args, afterName⟩, hsegments,
      ⟨dims, last⟩, hsuffixes, h⟩ := h
    cases h
    exact ⟨hmark, word, word', first, name, args, dims, afterName, hident, hmodifiers, hglobal,
      hsegments, hsuffixes, rfl⟩

/-- The reader of segments has passed the arguments that may stand next. -/
inductive PassesArgs (fuel : Nat) : List Char → List Char → Prop
  | none {cs : List Char} : eat '<' cs = none → PassesArgs fuel cs cs
  | empty {cs inside rest : List Char} : eat '<' cs = some inside → eat '>' inside = some rest →
      PassesArgs fuel cs rest
  | some {cs inside rest : List Char} {args : List TypeExpr} : eat '<' cs = some inside →
      readArgs fuel inside = some (args, rest) → PassesArgs fuel cs rest

/-- What follows `afterArgs` ends the name, or goes on with it behind a point. -/
def EndsOrGoesOn (fuel : Nat) (name : String) (afterArgs : List Char)
    (read : String × List TypeExpr × List Char) : Prop :=
  (read.1 = name ∧ read.2.2 = skipBlanks afterArgs ∧
    ∀ more, skipBlanks afterArgs = '.' :: more → more.head? = some '.') ∨
  ∃ more segment later args, skipBlanks afterArgs = '.' :: more ∧ more.head? ≠ some '.' ∧
    ident more = some (segment, later) ∧
    readSegments fuel (name ++ "." ++ segment) args later = some read

theorem readSegments_eq_some {name : String} {args : List TypeExpr}
    {read : String × List TypeExpr × List Char}
    (h : readSegments (fuel + 1) name args cs = some read) :
    ∃ afterArgs, PassesArgs fuel cs afterArgs ∧ EndsOrGoesOn fuel name afterArgs read := by
  rw [readSegments] at h
  simp only [Option.bind_eq_bind] at h
  split at h
  case' h_2 hopen => refine ⟨cs, .none hopen, ?_⟩
  case' h_1 inside hopen =>
    split at h
    case' h_1 closed hclose => refine ⟨closed, .empty hopen hclose, ?_⟩
    case' h_2 =>
      obtain ⟨⟨args', afterArgs⟩, hargs, h⟩ := Option.bind_eq_some_iff.mp h
      refine ⟨afterArgs, .some hopen hargs, ?_⟩
  -- whatever was passed, the name ends there or goes on
  all_goals
    simp only [Option.bind_some] at h
    split at h
    · next more heq =>
      cases h
      refine .inl ⟨rfl, heq.symm, ?_⟩
      intro more' hmore
      rw [← (List.cons.inj (heq.symm.trans hmore)).2]
      rfl
    · next more hpoints heq =>
      obtain ⟨⟨segment, later⟩, hident, h⟩ := Option.bind_eq_some_iff.mp h
      refine .inr ⟨more, segment, later, _, heq, ?_, hident, h⟩
      intro hhead
      obtain ⟨more', rfl⟩ := List.head?_eq_some_iff.mp hhead
      exact hpoints more' rfl
    · next hpoint hpoints =>
      cases h
      refine .inl ⟨rfl, rfl, ?_⟩
      intro more hmore
      exact absurd hmore (hpoints more)

theorem readArgs_eq_some {args : List TypeExpr} (h : readArgs (fuel + 1) cs = some (args, rest)) :
    ∃ arg afterArg, read fuel cs = some (arg, afterArg) ∧ (eat '>' afterArg = some rest ∨
      ∃ afterComma args', eat ',' afterArg = some afterComma ∧
        readArgs fuel afterComma = some (args', rest)) := by
  rw [readArgs] at h
  simp only [Option.bind_eq_bind, Option.bind_eq_some_iff] at h
  obtain ⟨⟨arg, afterArg⟩, hread, h⟩ := h
  refine ⟨arg, afterArg, hread, ?_⟩
  dsimp only at h
  split at h
  · next closed hclose =>
    cases h
    exact .inl hclose
  · obtain ⟨afterComma, hcomma, h⟩ := Option.bind_eq_some_iff.mp h
    obtain ⟨⟨args', last⟩, hargs, h⟩ := Option.bind_eq_some_iff.mp h
    cases h
    exact .inr ⟨afterComma, args', hcomma, hargs⟩

/-- Inside angle brackets the reader stays inside, and arguments end with the bracket that closes
them. -/
theorem outside_of_read (fuel : Nat) :
    (∀ {cs rest t}, read fuel cs = some (t, rest) →
      ∀ depth, outside (depth + 1) cs = outside (depth + 1) rest) ∧
    (∀ {cs rest name name' args args'}, readSegments fuel name args cs = some (name', args', rest) →
      ∀ depth, outside (depth + 1) cs = outside (depth + 1) rest) ∧
    (∀ {cs rest args}, readArgs fuel cs = some (args, rest) →
      ∀ depth, outside (depth + 1) cs = outside depth rest) := by
  induction fuel with
  | zero =>
    refine ⟨?_, ?_, ?_⟩
    · intro cs rest t h
      cases h
    · intro cs rest name name' args args' h
      cases h
    · intro cs rest args h
      cases h
  | succ fuel ih =>
    obtain ⟨ihRead, ihSegments, ihArgs⟩ := ih
    refine ⟨fun {cs rest t} h depth => ?_, fun {cs rest name name' args args'} h depth => ?_,
      fun {cs rest args} h depth => ?_⟩
    · rcases read_eq_some h with ⟨inside, hmark, hinside⟩ |
        ⟨-, word, word', first, name, args, dims, afterName, hident, hmodifiers, hglobal,
          hsegments, hsuffixes, -⟩
      · rw [(passes_of_eat (by decide) (by decide) hmark).outside_succ]
        rcases hinside with ⟨-, rfl⟩ | ⟨word, after, hident, hread⟩
        · rfl
        · rw [(passes_of_ident hident).outside_succ, ihRead hread]
      · rw [(passes_of_ident hident).outside_succ,
          (passes_of_skipModifiers hmodifiers).outside_succ,
          (passes_of_skipGlobal hglobal).outside_succ, ihSegments hsegments,
          (passes_of_suffixes hsuffixes).outside_succ]
    · obtain ⟨afterArgs, hargs, hname⟩ := readSegments_eq_some h
      have hpassed : outside (depth + 1) cs = outside (depth + 1) afterArgs := by
        cases hargs with
        | none hopen => rfl
        | empty hopen hclose => rw [outside_of_eat_open hopen, outside_of_eat_close hclose]
        | some hopen hargs => rw [outside_of_eat_open hopen, ihArgs hargs]
      rw [hpassed, (passes_skipBlanks afterArgs).outside_succ]
      rcases hname with ⟨-, hrest, -⟩ | ⟨more, segment, later, args'', hpoint, -, hident, hrest⟩
      · rw [← hrest]
      · rw [hpoint, (Passes.of_cons (by decide) (by decide) more).outside_succ,
          (passes_of_ident hident).outside_succ, ihSegments hrest]
    · obtain ⟨arg, afterArg, hread, hclose | ⟨afterComma, args', hcomma, hargs⟩⟩ :=
        readArgs_eq_some h
      · rw [ihRead hread, outside_of_eat_close hclose]
      · rw [ihRead hread, (passes_of_eat (by decide) (by decide) hcomma).outside_succ, ihArgs hargs]

/-! ## The characters of a name -/

/-- A character of a name. -/
def IsNameChar (c : Char) : Prop := isIdentChar c = true ∨ c = '.'

instance (c : Char) : Decidable (IsNameChar c) := inferInstanceAs (Decidable (_ ∨ _))

/-- Words and points. -/
structure IsName (name : String) : Prop where
  nonempty : name ≠ ""
  chars : ∀ c ∈ name.toList, IsNameChar c

-- the characters of the name are tried, and not all characters
instance (name : String) : Decidable (IsName name) :=
  @decidable_of_iff (IsName name) (name ≠ "" ∧ ∀ c ∈ name.toList, IsNameChar c)
    ⟨fun h => ⟨h.1, h.2⟩, fun h => ⟨h.nonempty, h.chars⟩⟩
    (@instDecidableAnd _ _ inferInstance (List.decidableBAll _ name.toList))

theorem isName_of_ident {w : String} (h : ident cs = some (w, rest)) : IsName w := by
  obtain ⟨hchars, -, hne⟩ := ident_eq_some h
  refine ⟨hne, ?_⟩
  intro c hc
  rw [hchars] at hc
  exact .inl (List.mem_takeWhile_imp hc)

theorem isName_of_skipModifiers {ms : List String} {word word' : String × List Char}
    (h : skipModifiers ms word = some word') (hword : IsName word.1) : IsName word'.1 := by
  induction ms generalizing word with
  | nil =>
    obtain rfl := Option.some.inj h
    exact hword
  | cons m ms ih =>
    rw [skipModifiers] at h
    split at h
    · obtain ⟨next, hnext, h⟩ := Option.bind_eq_some_iff.mp h
      exact ih h (isName_of_ident hnext)
    · exact ih h hword

theorem isName_of_skipGlobal {word word' : String × List Char}
    (h : skipGlobal word = some word') (hword : IsName word.1) : IsName word'.1 := by
  unfold skipGlobal at h
  split at h
  · split at h
    · obtain rfl := Option.some.inj h
      exact hword
    · split at h
      · obtain rfl := Option.some.inj h
        exact hword
      · exact isName_of_ident h
  · obtain rfl := Option.some.inj h
    exact hword

/-- A name is only lengthened, by characters of names. -/
theorem exists_append_of_readSegments {name name' : String} {args args' : List TypeExpr}
    (h : readSegments fuel name args cs = some (name', args', rest)) :
    ∃ more : List Char, name'.toList = name.toList ++ more ∧ ∀ c ∈ more, IsNameChar c := by
  induction fuel generalizing name args cs with
  | zero => cases h
  | succ fuel ih =>
    obtain ⟨afterArgs, -, ⟨hname, -, -⟩ | ⟨more, segment, later, args'', -, -, hident, hrest⟩⟩ :=
      readSegments_eq_some h
    · refine ⟨[], ?_, fun _ hc => absurd hc List.not_mem_nil⟩
      rw [← hname, List.append_nil]
    · obtain ⟨tail, htail, hchars⟩ := ih hrest
      refine ⟨'.' :: (segment.toList ++ tail), ?_, ?_⟩
      · rw [htail, String.toList_append, String.toList_append, List.append_assoc, List.append_assoc]
        rfl
      · rw [List.forall_mem_cons, List.forall_mem_append]
        exact ⟨.inr rfl, (isName_of_ident hident).chars, hchars⟩

/-- The name that is read is the wildcard or consists of words and points. -/
theorem isName_of_read (h : read fuel cs = some (t, rest)) : t.name = "?" ∨ IsName t.name := by
  induction fuel generalizing cs with
  | zero => cases h
  | succ fuel ih =>
    rcases read_eq_some h with ⟨inside, -, ⟨rfl, -⟩ | ⟨word, after, -, hread⟩⟩ |
      ⟨-, word, word', first, name, args, dims, afterName, hident, hmodifiers, hglobal, hsegments,
        -, rfl⟩
    · exact .inl rfl
    · exact ih hread
    · right
      show IsName name
      obtain ⟨more, hname, hmore⟩ := exists_append_of_readSegments hsegments
      have hfirst := isName_of_skipGlobal hglobal
        (isName_of_skipModifiers hmodifiers (isName_of_ident hident))
      constructor
      · rintro rfl
        obtain ⟨hnil, -⟩ := List.append_eq_nil_iff.mp hname.symm
        exact hfirst.nonempty (String.toList_eq_nil_iff.mp hnil)
      · rw [hname, List.forall_mem_append]
        exact ⟨hfirst.chars, hmore⟩

/-! ## Names before the first bracket -/

/-- Marks that add no dimension hold neither points nor brackets. -/
theorem le_of_suffixes {dims dims' : Nat} (h : suffixes fuel dims cs = some (dims', rest)) :
    dims ≤ dims' ∧ (dims = dims' → Blank rest → ∀ c ∈ cs, c ≠ '.' ∧ c ≠ '[') := by
  have hblank : ∀ {gap : List Char}, Blank gap → ∀ c ∈ gap, c ≠ '.' ∧ c ≠ '[' := by
    intro gap hgap c hc
    constructor
    · rintro rfl
      exact hgap.not_mem (by decide) hc
    · rintro rfl
      exact hgap.not_mem (by decide) hc
  induction fuel generalizing dims cs with
  | zero =>
    obtain ⟨rfl, rfl⟩ := Prod.mk.inj (Option.some.inj h)
    exact ⟨Nat.le_refl _, fun _ hrest => hblank hrest⟩
  | succ fuel ih =>
    obtain ⟨gap, hgap, hcs⟩ := exists_gap cs
    rw [suffixes] at h
    -- a mark that adds a dimension leaves more dimensions than there were
    have hmore : ∀ {later : List Char}, suffixes fuel (dims + 1) later = some (dims', rest) →
        dims ≤ dims' ∧ (dims = dims' → Blank rest → ∀ c ∈ cs, c ≠ '.' ∧ c ≠ '[') := by
      intro later h
      obtain ⟨hle, -⟩ := ih h
      exact ⟨by omega, fun heq => by omega⟩
    have hsame : ∀ {mark : Char} {later : List Char}, skipBlanks cs = mark :: later →
        mark ≠ '.' → mark ≠ '[' → suffixes fuel dims later = some (dims', rest) →
        dims ≤ dims' ∧ (dims = dims' → Blank rest → ∀ c ∈ cs, c ≠ '.' ∧ c ≠ '[') := by
      intro mark later heq hpoint hbracket h
      obtain ⟨hle, hmarks⟩ := ih h
      refine ⟨hle, ?_⟩
      intro hdims hrest
      rw [hcs, heq, List.forall_mem_append, List.forall_mem_cons]
      exact ⟨hblank hgap, ⟨hpoint, hbracket⟩, hmarks hdims hrest⟩
    split at h
    · split at h
      · exact hmore h
      · cases h
    · next later heq => exact hsame heq (by decide) (by decide) h
    · next later heq => exact hsame heq (by decide) (by decide) h
    · split at h
      · exact hmore h
      · cases h
    · obtain ⟨rfl, rfl⟩ := Prod.mk.inj (Option.some.inj h)
      refine ⟨Nat.le_refl _, ?_⟩
      intro _ hrest
      rw [hcs, List.forall_mem_append]
      exact ⟨hblank hgap, hblank hrest⟩

/-- What follows a name: an opening bracket or nothing, with any blanks before it. -/
def Ends (cs : List Char) : Prop := ∀ c ∈ next? cs, c = '<' ∨ c = '['

theorem Ends.not_isIdentChar (h : Ends cs) : ∀ c ∈ next? cs, isIdentChar c = false := by
  intro c hc
  rcases h c hc with rfl | rfl
  · decide
  · decide

theorem isBlank_of_isNameChar {c : Char} (h : IsNameChar c) : isBlank c = false := by
  rcases h with h | rfl
  · exact isBlank_of_isIdentChar h
  · decide

/-- The next character after a part of a name that starts with a point or is empty. -/
theorem next?_append {x r : List Char} (hx : ∀ c ∈ x.head?, c = '.') (hr : Ends r) :
    ∀ c ∈ next? (x ++ r), c = '.' ∨ c = '<' ∨ c = '[' := by
  cases x with
  | nil => exact fun c hc => .inr (hr c hc)
  | cons c x =>
    obtain rfl : c = '.' := hx c rfl
    intro d hd
    rw [next?, List.cons_append, skipBlanks_cons (by decide), List.head?_cons] at hd
    exact .inl (Option.some.inj hd).symm

theorem ident_append_eq_none {x r : List Char} (hx : ∀ c ∈ x.head?, c = '.') (hr : Ends r) :
    ident (x ++ r) = none := by
  refine ident_eq_none ?_
  intro c hc
  rcases next?_append hx hr c hc with rfl | rfl | rfl
  · decide
  · decide
  · decide

/-- A word of a name ends at a point or with the name. -/
theorem ident_append {x r : List Char} {w : String} (hx : ∀ c ∈ x, IsNameChar c) (hr : Ends r)
    (h : ident (x ++ r) = some (w, rest)) :
    ∃ x', x = w.toList ++ x' ∧ rest = x' ++ r ∧ (∀ c ∈ x'.head?, c = '.') := by
  let word := x.takeWhile isIdentChar
  let x' := x.dropWhile isIdentChar
  have hsplit : x = word ++ x' := (List.takeWhile_append_dropWhile).symm
  have hword : ∀ c ∈ word, isIdentChar c = true := fun c hc => List.mem_takeWhile_imp hc
  have hpoint : ∀ c ∈ x'.head?, c = '.' := by
    intro c hc
    have hnot := List.head?_dropWhile_not isIdentChar x
    rw [Option.mem_def.mp hc] at hnot
    have hmem : c ∈ x := hsplit ▸ List.mem_append_right _ (List.mem_of_mem_head? hc)
    exact (hx c hmem).resolve_left (by simpa using hnot)
  have hends : ∀ c ∈ (x' ++ r).head?, isIdentChar c = false := by
    refine not_isIdentChar_of_next? ?_
    intro c hc
    rcases next?_append hpoint hr c hc with rfl | rfl | rfl
    · decide
    · decide
    · decide
  cases hw : word with
  | nil =>
    rw [hsplit, hw, List.nil_append, ident_append_eq_none hpoint hr] at h
    cases h
  | cons c cs =>
    have hskip : skipBlanks (x ++ r) = word ++ (x' ++ r) := by
      rw [hsplit, List.append_assoc, hw, List.cons_append]
      exact skipBlanks_cons (isBlank_of_isIdentChar (hword c (by simp [hw]))) _
    obtain ⟨hname, hrest, -⟩ := ident_eq_some h
    rw [hskip, takeWhile_word hword hends] at hname
    rw [hskip, dropWhile_word hword hends] at hrest
    exact ⟨x', hname ▸ hsplit, hrest, hpoint⟩

/-- The segments that stand before the first bracket are read. -/
theorem readSegments_append {x r : List Char} (hx : ∀ c ∈ x, IsNameChar c) (hr : Ends r)
    (hstart : ∀ c ∈ x.head?, c = '.') {name : String} {args : List TypeExpr}
    {read : String × List TypeExpr × List Char}
    (h : readSegments fuel name args (x ++ r) = some read)
    (hmarks : ∀ c ∈ read.2.2, c ≠ '.' ∧ c ≠ '[') :
    ∃ fuel' args', readSegments fuel' (name ++ String.ofList x) args' r = some read := by
  induction fuel generalizing name args x with
  | zero => cases h
  | succ fuel ih =>
    cases x with
    | nil => exact ⟨fuel + 1, args, by rw [String.ofList_nil, String.append_empty]; exact h⟩
    | cons c x =>
      obtain rfl : c = '.' := hstart c rfl
      rw [List.forall_mem_cons] at hx
      have hskip : skipBlanks ('.' :: (x ++ r)) = '.' :: (x ++ r) := skipBlanks_cons (by decide) _
      have hopen : eat '<' ('.' :: (x ++ r)) = none := by
        rw [eat, hskip]
        rfl
      obtain ⟨afterArgs, hargs, hname⟩ := readSegments_eq_some h
      obtain rfl : '.' :: (x ++ r) = afterArgs := by
        cases hargs with
        | none _ => rfl
        | empty hsome _ => cases hopen.symm.trans hsome
        | some hsome _ => cases hopen.symm.trans hsome
      rcases hname with ⟨-, hrest, -⟩ | ⟨more, segment, later, args', hmore, -, hident, hread⟩
      · rw [hrest, hskip] at hmarks
        exact absurd rfl (hmarks '.' List.mem_cons_self).1
      · rw [hskip] at hmore
        obtain rfl : x ++ r = more := (List.cons.inj hmore).2
        obtain ⟨x', rfl, rfl, hpoint⟩ := ident_append hx.2 hr hident
        obtain ⟨fuel', args', hread⟩ :=
          ih (fun c hc => hx.2 c (List.mem_append_right _ hc)) hpoint hread
        refine ⟨fuel', args', ?_⟩
        rw [← hread]
        congr 1
        apply String.toList_injective
        simp

/-- After the segments before the first bracket the name ends, unless a point follows outside the
brackets. -/
theorem readSegments_end {r last : List Char} {name : String} {args : List TypeExpr}
    {read : String × List TypeExpr × List Char} (h : readSegments fuel name args r = some read)
    (hsuffixes : suffixes read.2.2.length 0 read.2.2 = some (0, last)) (hlast : Blank last) :
    read.1 = name ↔ '.' ∉ outside 0 r := by
  cases fuel with
  | zero => cases h
  | succ fuel =>
    obtain ⟨afterArgs, hargs, hname⟩ := readSegments_eq_some h
    obtain ⟨gap, hgap, houtside⟩ : ∃ gap, Blank gap ∧ outside 0 r = gap ++ outside 0 afterArgs := by
      have hopened : ∀ {inside : List Char}, eat '<' r = some inside →
          outside 1 inside = outside 0 afterArgs →
          ∃ gap, Blank gap ∧ outside 0 r = gap ++ outside 0 afterArgs := by
        intro inside hopen hinside
        obtain ⟨gap, hgap, hr⟩ := exists_gap r
        rw [skipBlanks_of_eat hopen] at hr
        refine ⟨gap, hgap, ?_⟩
        rw [hr, outside_zero_append (flat_of_blank hgap), outside_open, hinside]
      cases hargs with
      | none hopen => exact ⟨[], fun _ hc => absurd hc List.not_mem_nil, rfl⟩
      | empty hopen hclose => exact hopened hopen (outside_of_eat_close hclose 0)
      | some hopen hread => exact hopened hopen ((outside_of_read fuel).2.2 hread 0)
    have hpoint : ∀ {gap : List Char}, Blank gap → '.' ∉ gap :=
      fun hgap => hgap.not_mem (by decide)
    rw [houtside, List.mem_append, or_iff_right (hpoint hgap)]
    obtain ⟨gap', hgap', hafter⟩ := exists_gap afterArgs
    rcases hname with ⟨hsame, hrest, -⟩ | ⟨more, segment, later, args', hmore, -, -, hread⟩
    · rw [← hrest] at hafter
      have hflat : Flat afterArgs := by
        obtain ⟨used, hused, heq⟩ := passes_of_suffixes hsuffixes
        rw [hafter, heq]
        simp only [Flat, List.forall_mem_append]
        exact ⟨flat_of_blank hgap', hused, flat_of_blank hlast⟩
      have hall : outside 0 afterArgs = afterArgs := by
        have happend := outside_zero_append hflat []
        rwa [List.append_nil, outside, List.append_nil] at happend
      refine iff_of_true hsame ?_
      rw [hall, hafter, List.mem_append, or_iff_right (hpoint hgap')]
      intro hmem
      exact ((le_of_suffixes hsuffixes).2 rfl hlast '.' hmem).1 rfl
    · refine iff_of_false ?_ ?_
      · intro hsame
        obtain ⟨tail, htail, -⟩ := exists_append_of_readSegments hread
        have hlength := congrArg List.length htail
        simp only [hsame, String.toList_append, List.length_append] at hlength
        have hpointLength : ".".toList.length = 1 := by decide
        omega
      · rw [not_not, hafter, hmore, outside_zero_append (flat_of_blank hgap'),
          outside, if_neg (by decide), if_neg (by decide), if_pos rfl]
        exact List.mem_append_right _ List.mem_cons_self

theorem skipModifiers_of_ident_eq_none {ms : List String} {word word' : String × List Char}
    (hident : ident word.2 = none) (h : skipModifiers ms word = some word') : word' = word := by
  induction ms with
  | nil => exact (Option.some.inj h).symm
  | cons m ms ih =>
    rw [skipModifiers] at h
    split at h
    · rw [hident] at h
      cases h
    · exact ih h

/-- A name that stands plainly before the first bracket, with blanks around it, is the name of the
type if and only if no point follows outside angle brackets. -/
theorem name_eq_iff {gap x r : List Char} (hgap : Blank gap) (hx : ∀ c ∈ x, IsNameChar c)
    (hr : Ends r) (h : read fuel (gap ++ (x ++ r)) = some (t, rest)) (hdims : t.dims = 0)
    (hrest : Blank rest) : t.name = String.ofList x ↔ '.' ∉ outside 0 r := by
  cases fuel with
  | zero => cases h
  | succ fuel =>
    rcases read_eq_some h with ⟨inside, hmark, -⟩ |
      ⟨-, word, word', first, name, args, dims, afterName, hident, hmodifiers, hglobal, hsegments,
        hsuffixes, rfl⟩
    · have hskip := skipBlanks_of_eat hmark
      rw [skipBlanks_of_blank hgap] at hskip
      cases x with
      | nil =>
        have hnext := hr '?' (by rw [next?, ← List.nil_append r, hskip]; rfl)
        exact absurd hnext (by decide)
      | cons c x =>
        have hc := hx c List.mem_cons_self
        rw [List.cons_append, skipBlanks_cons (isBlank_of_isNameChar hc)] at hskip
        rw [(List.cons.inj hskip).1] at hc
        exact absurd hc (by decide)
    · rw [ident, skipBlanks_of_blank hgap, ← ident] at hident
      obtain ⟨w, after⟩ := word
      obtain ⟨x', rfl, rfl, hpoint⟩ := ident_append hx hr hident
      obtain rfl := skipModifiers_of_ident_eq_none (ident_append_eq_none hpoint hr) hmodifiers
      have hcolon : next? (x' ++ r) ≠ some ':' := by
        intro hnext
        have hc := next?_append hpoint hr ':' hnext
        exact absurd hc (by decide)
      rw [skipGlobal_eq hcolon] at hglobal
      obtain rfl := Option.some.inj hglobal
      obtain rfl : dims = 0 := hdims
      obtain ⟨fuel', args', hread⟩ := readSegments_append
        (fun c hc => hx c (List.mem_append_right _ hc)) hr hpoint hsegments
        ((le_of_suffixes hsuffixes).2 rfl hrest)
      have hname : w ++ String.ofList x' = String.ofList (w.toList ++ x') := by
        rw [String.ofList_append, String.ofList_toList]
      rw [← hname]
      exact readSegments_end hread hsuffixes hrest

/-- A wildcard is read as nothing else. -/
theorem read_wildcard {gap r : List Char} {fuel : Nat} {rest : List Char} (hgap : Blank gap)
    (hr : Ends r) (h : read fuel (gap ++ '?' :: r) = some (t, rest)) :
    t = plain "?" ∧ rest = r := by
  cases fuel with
  | zero => cases h
  | succ fuel =>
    have heat : eat '?' (gap ++ '?' :: r) = some r := by
      rw [eat, skipBlanks_of_blank hgap, skipBlanks_cons (by decide)]
      rfl
    have hident : ident r = none := ident_eq_none hr.not_isIdentChar
    rcases read_eq_some h with ⟨inside, hmark, hinside⟩ | ⟨hmark, -⟩
    · obtain rfl := Option.some.inj (heat.symm.trans hmark)
      rcases hinside with hplain | ⟨word, after, hword, -⟩
      · exact hplain
      · rw [hident] at hword
        cases hword
    · rw [heat] at hmark
      cases hmark

/-! ## Whole texts -/

theorem parse?_eq_some (h : parse? text = some t) : ∃ fuel rest,
    read fuel (dropAnnotations .outside text.toList) = some (t, rest) ∧ Blank rest := by
  obtain ⟨⟨t', rest⟩, hread, hrest⟩ := Option.bind_eq_some_iff.mp h
  dsimp only at hrest
  split at hrest
  · next hempty =>
    cases hrest
    refine ⟨_, rest, hread, ?_⟩
    have hnil := List.isEmpty_iff.mp hempty
    exact fun c hc => List.dropWhile_eq_nil_iff.mp hnil c hc
  · cases hrest

theorem isName_of_parse? (h : parse? text = some t) : t.name = "?" ∨ IsName t.name := by
  obtain ⟨fuel, rest, hread, -⟩ := parse?_eq_some h
  exact isName_of_read hread

theorem name_ne_empty (h : parse? text = some t) : t.name ≠ "" := by
  rcases isName_of_parse? h with hmark | hname
  · rw [hmark]
    decide
  · exact hname.nonempty

end Interlock.Types.TypeExpr
