import Mathlib.Data.List.Forall2
import Unmask.Encoding.ByteOrderMark

/-!
# Encodings

Reading undoes writing.  Each character is read back from its own bytes or units, whatever follows
them, so a text is read back character by character: no character is a surrogate, and the bytes of
one are never those of an error.  A byte order mark is taken off once, and the bytes of a text
without a mark look like one only where the text starts with the character of the mark itself.

    chars_encode           a text from its bytes in UTF-8
    decode?_eq_some_iff    the bytes that are UTF-8
    decode_encode          a text from its bytes in UTF-8 or UTF-16
    mem_of_mem_decode      a character of one byte, in the bytes it is read from
    decode_encoded         the content of a file, with a mark or without
-/

namespace Unmask.Encoding

theorem char_bounds (c : Char) : c.toNat < 0xD800 ∨ 0xE000 ≤ c.toNat ∧ c.toNat < 0x110000 := by
  rcases c.valid with h | ⟨h, h'⟩
  · exact .inl h
  · exact .inr ⟨h, h'⟩

/-! ## UTF-8 -/

namespace Utf8

/-- A byte that lies in a range. -/
def Within (range : UInt8 × UInt8) (b : UInt8) : Prop :=
  range.1 ≤ b ∧ b ≤ range.2

/-- A first byte and the bytes behind it that stand for the character with the number `n`. -/
structure Spells (n : Nat) (b : UInt8) (tail : Bytes) : Prop where
  within : ∃ ranges, tailRanges? b = some ranges ∧ List.Forall₂ Within ranges tail
  number : tail.foldl (fun n b => n * 64 + (b.toNat - 0x80)) (leadBits b) = n

theorem takeTail_append {ranges : List (UInt8 × UInt8)} {tail : Bytes}
    (h : List.Forall₂ Within ranges tail) (rest : Bytes) :
    takeTail ranges (tail ++ rest) = tail := by
  induction h with
  | nil =>
    unfold takeTail
    cases rest <;> rfl
  | cons hrange _ ih =>
    rw [List.cons_append, takeTail, ih]
    exact if_pos hrange

/-- A character is read from the bytes that stand for it, whatever follows them. -/
theorem first_append {n : Nat} {b : UInt8} {tail : Bytes} (h : Spells n b tail) (rest : Bytes) :
    first b (tail ++ rest) = (some (Char.ofNat n), tail.length) := by
  obtain ⟨ranges, hranges, htail⟩ := h.within
  unfold first
  rw [hranges]
  simp only [takeTail_append htail]
  rw [if_pos htail.length_eq.symm, h.number]

/-! ### Numbers of bytes -/

theorem toNat_ofNat {n : Nat} (h : n < 256) : (UInt8.ofNat n).toNat = n := by
  rw [UInt8.toNat_ofNat', Nat.mod_eq_of_lt h]

theorem toNat_tailByte (n scale : Nat) : (tailByte n scale).toNat = 0x80 + n / scale % 64 :=
  toNat_ofNat (by omega)

theorem tailByte_within {n scale : Nat} {range : UInt8 × UInt8}
    (h : range.1.toNat ≤ 0x80 + n / scale % 64) (h' : 0x80 + n / scale % 64 ≤ range.2.toNat) :
    Within range (tailByte n scale) := by
  rw [Within, UInt8.le_iff_toNat_le, UInt8.le_iff_toNat_le, toNat_tailByte]
  exact ⟨h, h'⟩

theorem tailByte_any (n scale : Nat) : Within (0x80, 0xBF) (tailByte n scale) :=
  tailByte_within (Nat.le_add_right _ _) (by show _ ≤ 0xBF; omega)

theorem tailRanges?_eq (b : UInt8) : tailRanges? b =
    if b.toNat < 0x80 then some []
    else if b.toNat < 0xC2 then none
    else if b.toNat < 0xE0 then some [(0x80, 0xBF)]
    else if b.toNat = 0xE0 then some [(0xA0, 0xBF), (0x80, 0xBF)]
    else if b.toNat = 0xED then some [(0x80, 0x9F), (0x80, 0xBF)]
    else if b.toNat < 0xF0 then some [(0x80, 0xBF), (0x80, 0xBF)]
    else if b.toNat = 0xF0 then some [(0x90, 0xBF), (0x80, 0xBF), (0x80, 0xBF)]
    else if b.toNat < 0xF4 then some [(0x80, 0xBF), (0x80, 0xBF), (0x80, 0xBF)]
    else if b.toNat = 0xF4 then some [(0x80, 0x8F), (0x80, 0xBF), (0x80, 0xBF)]
    else none := by
  simp only [tailRanges?, UInt8.lt_iff_toNat_lt, ← UInt8.toNat_inj]
  rfl

theorem leadBits_eq (b : UInt8) : leadBits b =
    if b.toNat < 0x80 then b.toNat else if b.toNat < 0xE0 then b.toNat - 0xC0
    else if b.toNat < 0xF0 then b.toNat - 0xE0 else b.toNat - 0xF0 := by
  simp only [leadBits, UInt8.lt_iff_toNat_lt]
  rfl

/-! ### Characters of one to four bytes -/

variable {n : Nat}

theorem spells_one (h : n < 0x80) : Spells n (UInt8.ofNat n) [] := by
  have hlead : (UInt8.ofNat n).toNat = n := toNat_ofNat (by omega)
  refine ⟨⟨[], ?ranges, .nil⟩, ?number⟩
  case ranges =>
    rw [tailRanges?_eq, hlead]
    exact if_pos h
  case number =>
    rw [List.foldl_nil, leadBits_eq, hlead]
    exact if_pos h

theorem spells_two (h : 0x80 ≤ n) (h' : n < 0x800) :
    Spells n (UInt8.ofNat (0xC0 + n / 64)) [tailByte n 1] := by
  have hlead : (UInt8.ofNat (0xC0 + n / 64)).toNat = 0xC0 + n / 64 := toNat_ofNat (by omega)
  refine ⟨⟨[(0x80, 0xBF)], ?ranges, .cons (tailByte_any n 1) .nil⟩, ?number⟩
  case ranges =>
    rw [tailRanges?_eq, hlead, if_neg (by omega), if_neg (by omega), if_pos (by omega)]
  case number =>
    rw [leadBits_eq, hlead, if_neg (by omega), if_pos (by omega)]
    simp only [List.foldl_cons, List.foldl_nil, toNat_tailByte]
    omega

/-- The byte behind `E0` is too small for no number, the one behind `ED` too great for surrogates. -/
theorem spells_three (h : 0x800 ≤ n) (h' : n < 0x10000) (hchar : n < 0xD800 ∨ 0xE000 ≤ n) :
    Spells n (UInt8.ofNat (0xE0 + n / 4096)) [tailByte n 64, tailByte n 1] := by
  have hlead : (UInt8.ofNat (0xE0 + n / 4096)).toNat = 0xE0 + n / 4096 := toNat_ofNat (by omega)
  have hlast : List.Forall₂ Within [(0x80, 0xBF)] [tailByte n 1] := .cons (tailByte_any n 1) .nil
  constructor
  case within =>
    rw [tailRanges?_eq, hlead, if_neg (by omega), if_neg (by omega), if_neg (by omega)]
    split
    · refine ⟨_, rfl, .cons (tailByte_within ?_ ?_) hlast⟩
      · show 0xA0 ≤ _
        omega
      · show _ ≤ 0xBF
        omega
    · split
      · refine ⟨_, rfl, .cons (tailByte_within (Nat.le_add_right _ _) ?_) hlast⟩
        show _ ≤ 0x9F
        omega
      · rw [if_pos (by omega)]
        exact ⟨_, rfl, .cons (tailByte_any n 64) hlast⟩
  case number =>
    rw [leadBits_eq, hlead, if_neg (by omega), if_neg (by omega), if_pos (by omega)]
    simp only [List.foldl_cons, List.foldl_nil, toNat_tailByte]
    omega

theorem spells_four (h : 0x10000 ≤ n) (h' : n < 0x110000) :
    Spells n (UInt8.ofNat (0xF0 + n / 262144)) [tailByte n 4096, tailByte n 64, tailByte n 1] := by
  have hlead : (UInt8.ofNat (0xF0 + n / 262144)).toNat = 0xF0 + n / 262144 :=
    toNat_ofNat (by omega)
  have hlast : List.Forall₂ Within [(0x80, 0xBF), (0x80, 0xBF)] [tailByte n 64, tailByte n 1] :=
    .cons (tailByte_any n 64) (.cons (tailByte_any n 1) .nil)
  constructor
  case within =>
    rw [tailRanges?_eq, hlead, if_neg (by omega), if_neg (by omega), if_neg (by omega),
      if_neg (by omega), if_neg (by omega), if_neg (by omega)]
    split
    · refine ⟨_, rfl, .cons (tailByte_within ?_ ?_) hlast⟩
      · show 0x90 ≤ _
        omega
      · show _ ≤ 0xBF
        omega
    · split
      · exact ⟨_, rfl, .cons (tailByte_any n 4096) hlast⟩
      · rw [if_pos (by omega)]
        refine ⟨_, rfl, .cons (tailByte_within (Nat.le_add_right _ _) ?_) hlast⟩
        show _ ≤ 0x8F
        omega
  case number =>
    rw [leadBits_eq, hlead, if_neg (by omega), if_neg (by omega), if_neg (by omega)]
    simp only [List.foldl_cons, List.foldl_nil, toNat_tailByte]
    omega

theorem exists_spells (c : Char) : ∃ b tail, encodeChar c = b :: tail ∧ Spells c.toNat b tail := by
  have hchar := char_bounds c
  unfold encodeChar
  dsimp only
  split
  · exact ⟨_, _, rfl, spells_one (by omega)⟩
  · split
    · exact ⟨_, _, rfl, spells_two (by omega) (by omega)⟩
    · split
      · exact ⟨_, _, rfl, spells_three (by omega) (by omega) (by omega)⟩
      · exact ⟨_, _, rfl, spells_four (by omega) (by omega)⟩

/-! ### Texts -/

/-- The bytes of a character are the ones that Lean's strings have for it. -/
theorem encodeChar_eq (c : Char) : encodeChar c = String.utf8EncodeChar c := by
  have hchar := char_bounds c
  have hval : c.val.toNat = c.toNat := rfl
  have htail (n : Nat) : n % 64 + 128 = 0x80 + n % 64 := Nat.add_comm _ _
  unfold encodeChar String.utf8EncodeChar tailByte
  simp only [hval, htail, Nat.div_one, ← Nat.lt_add_one_iff, Nat.reduceAdd]
  split
  · rfl
  · split
    · have hlead : c.toNat / 64 % 32 + 192 = 0xC0 + c.toNat / 64 := by omega
      rw [hlead]
    · split
      · have hlead : c.toNat / 4096 % 16 + 224 = 0xE0 + c.toNat / 4096 := by omega
        rw [hlead]
      · have hlead : c.toNat / 262144 % 8 + 240 = 0xF0 + c.toNat / 262144 := by omega
        rw [hlead]

/-- So a text has the bytes of the string. -/
theorem toByteArray_encode (s : Text) : (encode s).toByteArray = (String.ofList s).toByteArray := by
  rw [encode, funext encodeChar_eq, String.toByteArray_ofList]
  rfl

theorem chars_encodeChar_append (c : Char) (rest : Bytes) :
    chars (encodeChar c ++ rest) = some c :: chars rest := by
  obtain ⟨b, tail, hbytes, hspells⟩ := exists_spells c
  rw [hbytes, List.cons_append, chars, first_append hspells, Char.ofNat_toNat]
  simp only [List.drop_left]

theorem encode_cons (c : Char) (s : Text) : encode (c :: s) = encodeChar c ++ encode s :=
  List.flatMap_cons

theorem encode_append (s t : Text) : encode (s ++ t) = encode s ++ encode t :=
  List.flatMap_append

theorem chars_encode (s : Text) : chars (encode s) = s.map some := by
  induction s with
  | nil =>
    show chars [] = []
    rw [chars]
  | cons c s ih => rw [encode_cons, chars_encodeChar_append, ih, List.map_cons]

theorem decode_encode (s : Text) : decode (encode s) = s := by
  rw [decode, chars_encode, List.map_map]
  exact List.map_id' _

/-! ### Bytes that are refused -/

theorem mapM_id_eq_some_iff {cs : List (Option Char)} {s : Text} :
    cs.mapM id = some s ↔ cs = s.map some := by
  induction cs generalizing s with
  | nil => cases s <;> simp
  | cons c cs ih =>
    cases c with
    | none => cases s <;> simp
    | some c =>
      rw [List.mapM_cons]
      show ((cs.mapM id).bind fun s => some (c :: s)) = some s ↔ _
      rw [Option.bind_eq_some_iff]
      constructor
      · rintro ⟨t, ht, ⟨⟩⟩
        rw [ih.1 ht, List.map_cons]
      · intro h
        cases s with
        | nil => cases h
        | cons c' s =>
          rw [List.map_cons, List.cons.injEq, Option.some.injEq] at h
          exact ⟨s, ih.2 h.2, by rw [h.1]⟩

theorem decode?_eq_some_iff {bytes : Bytes} {s : Text} :
    decode? bytes = some s ↔ chars bytes = s.map some :=
  mapM_id_eq_some_iff

theorem decode?_encode (s : Text) : decode? (encode s) = some s :=
  decode?_eq_some_iff.2 (chars_encode s)

theorem decode_of_decode? {bytes : Bytes} {s : Text} (h : decode? bytes = some s) :
    decode bytes = s := by
  rw [decode, decode?_eq_some_iff.1 h, List.map_map]
  exact List.map_id' _

/-! ### Characters of one byte -/

/-- The bytes of a character are its number, or lie above those of all that have one byte only. -/
theorem toNat_of_mem_encodeChar {c : Char} {b : UInt8} (h : b ∈ encodeChar c) :
    b.toNat = c.toNat ∨ 0x80 ≤ b.toNat := by
  have hchar := char_bounds c
  have htail (scale : Nat) : 0x80 ≤ (tailByte c.toNat scale).toNat := by
    rw [toNat_tailByte]
    exact Nat.le_add_right _ _
  unfold encodeChar at h
  dsimp only at h
  split at h
  · rw [List.mem_singleton.1 h]
    exact Or.inl (toNat_ofNat (by omega))
  · refine Or.inr ?_
    have hlead (n : Nat) (hn : 0x80 ≤ n) (hn' : n < 256) : 0x80 ≤ (UInt8.ofNat n).toNat := by
      rw [toNat_ofNat hn']
      exact hn
    split at h
    · rcases List.mem_cons.1 h with rfl | h
      · exact hlead _ (by omega) (by omega)
      · rw [List.mem_singleton.1 h]
        exact htail _
    · split at h <;> simp only [List.mem_cons, List.not_mem_nil, or_false] at h
      · rcases h with rfl | rfl | rfl
        · exact hlead _ (by omega) (by omega)
        · exact htail _
        · exact htail _
      · rcases h with rfl | rfl | rfl | rfl
        · exact hlead _ (by omega) (by omega)
        · exact htail _
        · exact htail _
        · exact htail _

theorem mem_of_mem_encode {b : UInt8} {s : Text} (hb : b.toNat < 0x80) (h : b ∈ encode s) :
    Char.ofNat b.toNat ∈ s := by
  obtain ⟨c, hc, hmem⟩ := List.mem_flatMap.1 h
  have heq : b.toNat = c.toNat := (toNat_of_mem_encodeChar hmem).resolve_right (by omega)
  rwa [heq, Char.ofNat_toNat]

theorem forall₂_takeTail {ranges : List (UInt8 × UInt8)} {s : Bytes}
    (h : (takeTail ranges s).length = ranges.length) :
    List.Forall₂ Within ranges (takeTail ranges s) := by
  fun_induction takeTail ranges s with
  | case1 least greatest ranges b s hb ih =>
    exact .cons hb (ih (Nat.succ.inj h))
  | case2 => cases h
  | case3 ranges s hne =>
    rw [List.length_eq_zero_iff.1 h.symm]
    exact .nil

theorem le_foldl_tail (n : Nat) (tail : Bytes) :
    n ≤ tail.foldl (fun n b => n * 64 + (b.toNat - 0x80)) n := by
  induction tail generalizing n with
  | nil => exact Nat.le_refl n
  | cons b tail ih =>
    have hstep : n ≤ n * 64 + (b.toNat - 0x80) := by omega
    rw [List.foldl_cons]
    exact Nat.le_trans hstep (ih (n * 64 + (b.toNat - 0x80)))

theorem le_foldl_cons {n : Nat} (hn : 2 ≤ n) (b : UInt8) (tail : Bytes) :
    0x80 ≤ (b :: tail).foldl (fun n b => n * 64 + (b.toNat - 0x80)) n := by
  have hstep : 0x80 ≤ n * 64 + (b.toNat - 0x80) := by omega
  rw [List.foldl_cons]
  exact Nat.le_trans hstep (le_foldl_tail (n * 64 + (b.toNat - 0x80)) tail)

/-- Bytes behind the first are for characters that have more than one byte. -/
theorem number_cases {ranges : List (UInt8 × UInt8)} {b : UInt8} {tail : Bytes}
    (hranges : tailRanges? b = some ranges) (h : List.Forall₂ Within ranges tail) :
    leadBits b = b.toNat ∧ tail = [] ∨
      0x80 ≤ tail.foldl (fun n b => n * 64 + (b.toNat - 0x80)) (leadBits b) := by
  rw [tailRanges?_eq] at hranges
  have hlead := leadBits_eq b
  by_cases hone : b.toNat < 0x80
  · rw [if_pos hone] at hranges hlead
    cases hranges
    cases h
    exact Or.inl ⟨hlead, rfl⟩
  rw [if_neg hone] at hranges hlead
  by_cases hnone : b.toNat < 0xC2
  · rw [if_pos hnone] at hranges
    cases hranges
  rw [if_neg hnone] at hranges
  refine Or.inr ?_
  by_cases htwo : b.toNat < 0xE0
  · rw [if_pos htwo] at hranges hlead
    cases hranges
    rcases h with _ | ⟨-, h⟩
    exact le_foldl_cons (by omega) _ _
  rw [if_neg htwo] at hranges hlead
  -- the byte behind `E0` or `F0`, which add nothing by themselves, is never the least one
  have hdegree : leadBits b = b.toNat - 0xE0 ∧ b.toNat < 0xF0 ∨
      leadBits b = b.toNat - 0xF0 ∧ 0xF0 ≤ b.toNat := by
    split at hlead
    · exact Or.inl ⟨hlead, by assumption⟩
    · exact Or.inr ⟨hlead, by omega⟩
  split_ifs at hranges <;> cases hranges <;> rcases h with _ | ⟨⟨hfirst, -⟩, _ | _⟩ <;>
    rw [List.foldl_cons] <;> refine le_foldl_cons ?_ _ _ <;>
    rw [UInt8.le_iff_toNat_le] at hfirst <;> simp only [UInt8.reduceToNat] at hfirst <;> omega

theorem toNat_ofNat_char {n : Nat} (h : 0 < (Char.ofNat n).toNat) : (Char.ofNat n).toNat = n := by
  by_cases hvalid : n.isValidChar
  · have hchar : Char.ofNat n = Char.ofNatAux n hvalid := dif_pos hvalid
    exact congrArg Char.toNat hchar
  · have hchar : Char.ofNat n = '\x00' := dif_neg hvalid
    rw [hchar] at h
    exact absurd h (by decide)

/-- The only byte of a character that has one byte is found where it is read. -/
theorem first_eq_ascii {b : UInt8} {s : Bytes} {c : Char} {width : Nat}
    (h : first b s = (some c, width)) (hc : 0 < c.toNat) (hc' : c.toNat < 0x80) :
    b.toNat = c.toNat := by
  unfold first at h
  split at h
  · cases h
  · next ranges hranges =>
    dsimp only at h
    split at h
    · next hlength =>
      obtain ⟨hchar, -⟩ := Prod.mk.inj h
      obtain rfl := Option.some.inj hchar
      have hnumber := toNat_ofNat_char hc
      rcases number_cases hranges (forall₂_takeTail hlength) with ⟨hlead, hnil⟩ | hlarge
      · rw [hnumber, hnil, List.foldl_nil, hlead]
      · omega
    · cases h

theorem mem_of_mem_decode {bytes : Bytes} {c : Char} (hc : 0 < c.toNat) (hc' : c.toNat < 0x80)
    (h : c ∈ decode bytes) : UInt8.ofNat c.toNat ∈ bytes := by
  obtain ⟨c?, hmem, heq⟩ := List.mem_map.1 h
  have hsome : some c ∈ chars bytes := by
    cases c? with
    | some d =>
      obtain rfl : d = c := heq
      exact hmem
    | none =>
      obtain rfl : replacement = c := heq
      exact absurd hc' (by decide)
  clear hmem heq h
  fun_induction chars bytes with
  | case1 => cases hsome
  | case2 b s d width hfirst ih =>
    rcases List.mem_cons.1 hsome with rfl | hrest
    · rw [← first_eq_ascii hfirst hc hc', UInt8.ofNat_toNat]
      exact List.mem_cons_self
    · exact List.mem_cons_of_mem b (List.mem_of_mem_drop (ih hrest))

end Utf8

/-! ## UTF-16 -/

namespace Utf16

theorem unitsOfChar_lt (c : Char) : ∀ u ∈ unitsOfChar c, u < 0x10000 := by
  have hchar := char_bounds c
  unfold unitsOfChar
  dsimp only
  split
  · intro u hu
    rw [List.mem_singleton.1 hu]
    assumption
  · intro u hu
    rw [List.mem_cons, List.mem_singleton] at hu
    omega

theorem units_bytesOfUnit_append (order : ByteOrder) {u : Nat} (hu : u < 0x10000) (rest : Bytes) :
    units order (bytesOfUnit order u ++ rest) = u :: units order rest := by
  have hlow : (UInt8.ofNat (u % 256)).toNat = u % 256 := Utf8.toNat_ofNat (by omega)
  have hhigh : (UInt8.ofNat (u / 256)).toNat = u / 256 := Utf8.toNat_ofNat (by omega)
  cases order with
  | littleEndian | bigEndian =>
    simp only [bytesOfUnit, List.cons_append, List.nil_append, units, hlow, hhigh]
    rw [Nat.div_add_mod']

theorem units_flatMap_bytesOfUnit (order : ByteOrder) {us : List Nat} (h : ∀ u ∈ us, u < 0x10000) :
    units order (us.flatMap (bytesOfUnit order)) = us := by
  induction us with
  | nil => rfl
  | cons u us ih =>
    rw [List.flatMap_cons, units_bytesOfUnit_append order (h u List.mem_cons_self),
      ih fun u hu => h u (List.mem_cons_of_mem _ hu)]

theorem isHigh_iff (u : Nat) : isHigh u = true ↔ 0xD800 ≤ u ∧ u < 0xDC00 := by
  simp [isHigh]

theorem isLow_iff (u : Nat) : isLow u = true ↔ 0xDC00 ≤ u ∧ u < 0xE000 := by
  simp [isLow]

/-- A unit that is no surrogate is a character by itself. -/
theorem charsOfUnits_cons {u : Nat} (hhigh : isHigh u = false) (hlow : isLow u = false)
    (rest : List Nat) : charsOfUnits (u :: rest) = Char.ofNat u :: charsOfUnits rest := by
  cases rest with
  | nil => simp [charsOfUnits, hhigh, hlow]
  | cons v rest => simp [charsOfUnits, hhigh, hlow]

theorem charsOfUnits_pair {u v : Nat} (hhigh : isHigh u = true) (hlow : isLow v = true)
    (rest : List Nat) : charsOfUnits (u :: v :: rest) =
      Char.ofNat (0x10000 + (u - 0xD800) * 0x400 + (v - 0xDC00)) :: charsOfUnits rest := by
  simp [charsOfUnits, hhigh, hlow]

/-- A character is read back from its units, whatever follows them. -/
theorem charsOfUnits_unitsOfChar_append (c : Char) (rest : List Nat) :
    charsOfUnits (unitsOfChar c ++ rest) = c :: charsOfUnits rest := by
  have hchar := char_bounds c
  unfold unitsOfChar
  dsimp only
  split
  · have hhigh : isHigh c.toNat = false := by
      rw [← Bool.not_eq_true, isHigh_iff]
      omega
    have hlow : isLow c.toNat = false := by
      rw [← Bool.not_eq_true, isLow_iff]
      omega
    rw [List.singleton_append, charsOfUnits_cons hhigh hlow, Char.ofNat_toNat]
  · have hhigh : isHigh (0xD800 + (c.toNat - 0x10000) / 0x400) = true := by
      rw [isHigh_iff]
      omega
    have hlow : isLow (0xDC00 + (c.toNat - 0x10000) % 0x400) = true := by
      rw [isLow_iff]
      omega
    have hnumber : 0x10000 + (0xD800 + (c.toNat - 0x10000) / 0x400 - 0xD800) * 0x400 +
        (0xDC00 + (c.toNat - 0x10000) % 0x400 - 0xDC00) = c.toNat := by omega
    rw [List.cons_append, List.singleton_append, charsOfUnits_pair hhigh hlow, hnumber,
      Char.ofNat_toNat]

theorem charsOfUnits_flatMap_unitsOfChar (s : Text) : charsOfUnits (s.flatMap unitsOfChar) = s := by
  induction s with
  | nil => rfl
  | cons c s ih => rw [List.flatMap_cons, charsOfUnits_unitsOfChar_append, ih]

theorem decode_encode (order : ByteOrder) (s : Text) : decode order (encode order s) = s := by
  have hunits : ∀ u ∈ s.flatMap unitsOfChar, u < 0x10000 := by
    intro u hu
    obtain ⟨c, -, hu⟩ := List.mem_flatMap.1 hu
    exact unitsOfChar_lt c u hu
  rw [decode, encode, units_flatMap_bytesOfUnit order hunits, charsOfUnits_flatMap_unitsOfChar]

end Utf16

/-! ## Files -/

def Mark.encode : Mark → Text → Bytes
  | utf8, s => Utf8.encode s
  | utf16 order, s => Utf16.encode order s

/-- A mark is taken off once. -/
theorem splitMark_bytes_append (mark : Mark) (s : Bytes) :
    splitMark (mark.bytes ++ s) = (some mark, s) := by
  cases mark with
  | utf8 => rfl
  | utf16 order => cases order <;> rfl

/-- The bytes of a text look like a mark only if the text starts with the character of the mark. -/
theorem splitMark_encode {s : Text} (h : s.head? ≠ some '\uFEFF') :
    splitMark (Utf8.encode s) = (none, Utf8.encode s) := by
  -- the bytes of the mark of UTF-8 are read as its character, and those of the other two as an error
  have hchars := Utf8.chars_encode s
  have herror {b : UInt8} {rest : Bytes} (hb : Utf8.tailRanges? b = none)
      (hread : Utf8.chars (b :: rest) = s.map some) : False := by
    have hmem : none ∈ s.map some := by
      rw [← hread, Utf8.chars, Utf8.first, hb]
      exact List.mem_cons_self
    obtain ⟨c, -, hc⟩ := List.mem_map.1 hmem
    cases hc
  generalize Utf8.encode s = bytes at hchars ⊢
  unfold splitMark
  split
  · exact (herror rfl hchars).elim
  · exact (herror rfl hchars).elim
  · next rest =>
    have hmark : Utf8.chars (0xEF :: 0xBB :: 0xBF :: rest) = some '\uFEFF' :: Utf8.chars rest :=
      Utf8.chars_encodeChar_append '\uFEFF' rest
    rw [hmark] at hchars
    cases s with
    | nil => cases hchars
    | cons c s =>
      rw [List.map_cons, List.cons.injEq] at hchars
      exact absurd hchars.1.symm h
  · rfl

/-- A file without a mark is read as UTF-8. -/
theorem decode_of_unmarked {bytes : Bytes} (h : (splitMark bytes).1 = none) :
    decode bytes = Utf8.decode bytes := by
  have hsplit : splitMark bytes = (none, bytes) := by
    revert h
    unfold splitMark
    split
    · exact nofun
    · exact nofun
    · exact nofun
    · exact fun _ => rfl
  rw [decode, hsplit]

/--
A text is read back from a mark and its bytes in the encoding that the mark tells, and without a
mark from its bytes in UTF-8 unless it starts with the character of the mark.
-/
theorem decode_encoded (s : Text) :
    (∀ mark : Mark, decode (mark.bytes ++ mark.encode s) = s) ∧
      (decode (Utf8.encode s) = s ↔ s.head? ≠ some '\uFEFF') := by
  refine ⟨fun mark => ?_, fun h hhead => ?_, fun h => ?_⟩
  · rw [decode, splitMark_bytes_append]
    cases mark with
    | utf8 => exact Utf8.decode_encode s
    | utf16 order => exact Utf16.decode_encode order s
  · obtain ⟨t, rfl⟩ := List.head?_eq_some_iff.1 hhead
    have hmark : Utf8.encode ('\uFEFF' :: t) = Mark.utf8.bytes ++ Utf8.encode t := rfl
    rw [hmark, decode, splitMark_bytes_append] at h
    have hrest : t = '\uFEFF' :: t := (Utf8.decode_encode t).symm.trans h
    exact absurd (congrArg List.length hrest) (by simp)
  · rw [decode, splitMark_encode h]
    exact Utf8.decode_encode s

end Unmask.Encoding
