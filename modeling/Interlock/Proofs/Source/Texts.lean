import Interlock.Proofs.Text.Occurrence
import Interlock.Source.Node

/-! Texts of nodes. A node carries the bytes between two positions of the source, and these may cut
characters in two. A mark of plain characters is still found in the source wherever it is found in
the text of a node, since the byte of a plain character is a byte of no other one. -/

namespace Interlock.Text

/-- A character whose encoding is one byte. -/
def IsPlain (c : Char) : Prop := c.toNat < 128

instance (c : Char) : Decidable (IsPlain c) := inferInstanceAs (Decidable (c.toNat < 128))

/-- The bytes of a text. -/
def bytesOf (cs : List Char) : List UInt8 := cs.flatMap String.utf8EncodeChar

@[simp]
theorem bytesOf_nil : bytesOf [] = [] := rfl

@[simp]
theorem bytesOf_cons (c : Char) (cs : List Char) :
    bytesOf (c :: cs) = String.utf8EncodeChar c ++ bytesOf cs := rfl

theorem bytesOf_append (cs ds : List Char) : bytesOf (cs ++ ds) = bytesOf cs ++ bytesOf ds :=
  List.flatMap_append

theorem toList_data_toUTF8 (s : String) : s.toUTF8.data.toList = bytesOf s.toList := by
  show s.toByteArray.data.toList = _
  rw [← String.utf8Encode_toList, List.utf8Encode, List.toList_data_toByteArray, bytesOf]

theorem utf8EncodeChar_of_isPlain {c : Char} (h : IsPlain c) :
    String.utf8EncodeChar c = [UInt8.ofNat c.toNat] := by
  have hle : c.val.toNat ≤ 127 := Nat.le_of_lt_succ h
  simp only [String.utf8EncodeChar, hle, if_true, Char.toNat]

/-- All bytes of the other characters are large. -/
theorem isPlain_of_byte_lt {c : Char} {b : UInt8} (hmem : b ∈ String.utf8EncodeChar c)
    (hb : b.toNat < 128) : IsPlain c := by
  by_contra hplain
  have hlarge : ¬ c.val.toNat ≤ 127 := fun hle => hplain (Nat.lt_succ_of_le hle)
  have hbytes : ∃ k, 128 ≤ k ∧ k < 256 ∧ b = UInt8.ofNat k := by
    simp only [String.utf8EncodeChar, hlarge, if_false] at hmem
    split at hmem
    · rcases List.mem_pair.mp hmem with rfl | rfl
      all_goals exact ⟨_, by omega, by omega, rfl⟩
    · split at hmem
      all_goals
        simp only [List.mem_cons, List.not_mem_nil, or_false] at hmem
        obtain rfl | rfl | rfl | rfl := hmem
        all_goals exact ⟨_, by omega, by omega, rfl⟩
  obtain ⟨k, hk, hk', rfl⟩ := hbytes
  rw [UInt8.toNat_ofNat', Nat.mod_eq_of_lt hk'] at hb
  omega

theorem utf8EncodeChar_ne_nil (c : Char) : String.utf8EncodeChar c ≠ [] := by
  rw [← List.length_pos_iff, String.length_utf8EncodeChar]
  exact Char.utf8Size_pos c

theorem eq_nil_of_bytesOf_eq_nil {cs : List Char} (h : bytesOf cs = []) : cs = [] := by
  cases cs with
  | nil => rfl
  | cons c cs =>
    rw [bytesOf_cons, List.append_eq_nil_iff] at h
    exact absurd h.1 (utf8EncodeChar_ne_nil c)

theorem eq_of_byte_eq {c d : Char} (hc : IsPlain c) (hd : IsPlain d)
    (h : UInt8.ofNat c.toNat = UInt8.ofNat d.toNat) : c = d := by
  have hnat := congrArg UInt8.toNat h
  unfold IsPlain at hc hd
  rw [UInt8.toNat_ofNat', UInt8.toNat_ofNat', Nat.mod_eq_of_lt (by omega),
    Nat.mod_eq_of_lt (by omega)] at hnat
  exact Char.toNat_inj.mp hnat

/-- The byte of a plain character is found only where that character is. -/
theorem exists_split_of_bytesOf_eq {d : Char} (hd : IsPlain d) {cs : List Char}
    (first : List UInt8) {last : List UInt8}
    (h : bytesOf cs = first ++ UInt8.ofNat d.toNat :: last) :
    ∃ before after, cs = before ++ d :: after ∧ bytesOf before = first ∧ bytesOf after = last := by
  have hbyte : (UInt8.ofNat d.toNat).toNat = d.toNat := by
    rw [UInt8.toNat_ofNat']
    exact Nat.mod_eq_of_lt (Nat.lt_trans hd (by decide))
  induction cs generalizing first with
  | nil => simp at h
  | cons c cs ih =>
    rw [bytesOf_cons] at h
    rcases List.append_eq_append_iff.mp h with ⟨more, rfl, hrest⟩ | ⟨more, hfirst, hrest⟩
    · obtain ⟨before, after, rfl, rfl, rfl⟩ := ih _ hrest
      exact ⟨c :: before, after, rfl, rfl, rfl⟩
    · cases more with
      | nil =>
        obtain ⟨before, after, rfl, hbefore, rfl⟩ := ih [] (by simpa using hrest.symm)
        obtain rfl := eq_nil_of_bytesOf_eq_nil hbefore
        exact ⟨[c], after, rfl, by simpa using hfirst, rfl⟩
      | cons b more =>
        -- the byte stands in the encoding of `c`, which therefore is that byte
        obtain ⟨rfl, rfl⟩ := List.cons.inj hrest
        have hplain : IsPlain c := by
          refine isPlain_of_byte_lt (b := UInt8.ofNat d.toNat) ?_ (hbyte.trans_lt hd)
          rw [hfirst]
          exact List.mem_append_right _ List.mem_cons_self
        rw [utf8EncodeChar_of_isPlain hplain] at hfirst
        obtain ⟨rfl, hsame⟩ | ⟨rest, -, hrest⟩ := List.append_eq_cons_iff.mp hfirst.symm
        · obtain ⟨hbytes, rfl⟩ := List.cons.inj hsame
          exact ⟨[], cs, by rw [eq_of_byte_eq hd hplain hbytes]; rfl, rfl, rfl⟩
        · simp at hrest

/-- A plain text stands where its bytes stand. -/
theorem exists_append_of_bytesOf_eq {part cs : List Char} (hpart : ∀ c ∈ part, IsPlain c)
    {last : List UInt8} (h : bytesOf cs = bytesOf part ++ last) :
    ∃ after, cs = part ++ after ∧ bytesOf after = last := by
  induction part generalizing cs with
  | nil => exact ⟨cs, rfl, by simpa using h⟩
  | cons d part ih =>
    obtain ⟨hd, hpart⟩ := List.forall_mem_cons.mp hpart
    rw [bytesOf_cons, utf8EncodeChar_of_isPlain hd, List.append_assoc] at h
    obtain ⟨before, after, rfl, hbefore, hafter⟩ := exists_split_of_bytesOf_eq hd [] h
    obtain rfl := eq_nil_of_bytesOf_eq_nil hbefore
    obtain ⟨rest, rfl, hrest⟩ := ih hpart hafter
    exact ⟨rest, rfl, hrest⟩

theorem infix_of_bytesOf_infix {part cs : List Char} (hpart : ∀ c ∈ part, IsPlain c)
    (h : bytesOf part <:+: bytesOf cs) : part <:+: cs := by
  obtain ⟨first, last, h⟩ := h
  cases part with
  | nil => exact List.nil_infix
  | cons d part =>
    obtain ⟨hd, hrest⟩ := List.forall_mem_cons.mp hpart
    rw [bytesOf_cons, utf8EncodeChar_of_isPlain hd, List.append_assoc, List.append_assoc] at h
    obtain ⟨before, after, rfl, -, hafter⟩ := exists_split_of_bytesOf_eq hd first h.symm
    obtain ⟨rest, rfl, -⟩ := exists_append_of_bytesOf_eq hrest hafter
    exact ⟨before, rest, by simp⟩

end Interlock.Text

namespace Interlock.Source

open Interlock.Text

/-- What is found between two positions of a text is found in the text. -/
theorem contains_of_contains_slice {mark source : String} (hmark : ∀ c ∈ mark.toList, IsPlain c)
    {start stop : Nat} (h : contains mark (slice source.toUTF8 start stop) = true) :
    contains mark source = true := by
  rw [contains_iff] at h ⊢
  unfold slice at h
  cases htext : String.fromUTF8? (source.toUTF8.extract start stop) with
  | none =>
    rw [htext] at h
    have hnil : mark.toList = [] := List.infix_nil.mp h
    rw [hnil]
    exact List.nil_infix
  | some text =>
    rw [htext, Option.getD_some] at h
    have hbytes : text.toUTF8 = source.toUTF8.extract start stop := by
      unfold String.fromUTF8? at htext
      split at htext
      · cases htext
        rfl
      · cases htext
    have hslice : bytesOf text.toList <:+: bytesOf source.toList := by
      rw [← toList_data_toUTF8, hbytes, ByteArray.data_extract, Array.toList_extract,
        toList_data_toUTF8]
      exact ((List.take_prefix _ _).isInfix).trans (List.drop_suffix _ _).isInfix
    obtain ⟨before, after, htext⟩ := h
    refine infix_of_bytesOf_infix hmark (List.IsInfix.trans ?_ hslice)
    rw [← htext, bytesOf_append, bytesOf_append]
    exact ⟨_, _, rfl⟩

/-! ## Trees -/

theorem Outline.toNodes_eq_map (source : ByteArray) (os : List Outline) :
    Outline.toNodes source os = os.map (Outline.toNode source) := by
  induction os with
  | nil => rfl
  | cons o os ih => rw [Outline.toNodes, ih, List.map_cons]

/-- `m` is the node or stands below it. -/
def Node.Contains (n m : Node) : Prop := m = n ∨ n.Inside m

namespace Node

variable {n m k : Node}

theorem Contains.trans (h : n.Contains m) (h' : m.Contains k) : n.Contains k := by
  rcases h' with rfl | h'
  · exact h
  rcases h with rfl | h
  · exact .inr h'
  · exact .inr (h.trans h')

theorem Contains.below (h : n.Contains m) (k : m.Below) : n.Contains k.toNode :=
  h.trans (.inr k.inside)

/-- What stands below a node stands in one of its children. -/
theorem Inside.exists_child (h : n.Inside m) : ∃ c ∈ n.children, c.Contains m := by
  induction h with
  | child hm => exact ⟨_, hm, .inl rfl⟩
  | deeper _ hk ih =>
    obtain ⟨c, hc, hm⟩ := ih
    exact ⟨c, hc, hm.trans (.inr (.child hk))⟩

end Node

/-- The nodes of a tree come from the nodes of its outline. -/
theorem Outline.exists_toNode_eq {source : ByteArray} {tree : Outline} {n : Node}
    (h : (tree.toNode source).Contains n) : ∃ o : Outline, n = o.toNode source := by
  have hchild : ∀ (o : Outline) {m : Node}, m ∈ (o.toNode source).children →
      ∃ o' : Outline, m = o'.toNode source := by
    rintro ⟨label, field, start, stop, children⟩ m hm
    rw [Outline.toNode, Outline.toNodes_eq_map] at hm
    obtain ⟨o', -, rfl⟩ := List.mem_map.mp hm
    exact ⟨o', rfl⟩
  rcases h with rfl | h
  · exact ⟨tree, rfl⟩
  induction h with
  | child hm => exact hchild tree hm
  | deeper _ hk ih =>
    obtain ⟨o, rfl⟩ := ih
    exact hchild o hk

/-- A mark that is not in the source is in no text of the tree. -/
theorem Outline.contains_text_eq_false {mark source : String} (hmark : ∀ c ∈ mark.toList, IsPlain c)
    (hsource : contains mark source = false) {tree : Outline} {n : Node}
    (h : (tree.toNode source.toUTF8).Contains n) : contains mark n.text = false := by
  obtain ⟨⟨label, field, start, stop, children⟩, rfl⟩ := Outline.exists_toNode_eq h
  rw [Bool.eq_false_iff] at hsource ⊢
  exact fun hfound => hsource (contains_of_contains_slice hmark hfound)

end Interlock.Source
