import Unmask.Text.Basic

/-!
# Byte length

The limits of a command line count the bytes of the UTF-8 form of a text.  A cut never splits a
character.
-/

namespace Unmask.Text

/-- The number of bytes of the UTF-8 form. -/
def byteLength : Text → Nat
  | [] => 0
  | c :: s => c.utf8Size + byteLength s

/-- The longest start of a text that has at most `budget` bytes. -/
def takeBytes : (budget : Nat) → Text → Text
  | _, [] => []
  | budget, c :: s =>
    if c.utf8Size ≤ budget then c :: takeBytes (budget - c.utf8Size) s else []

theorem byteLength_append (s t : Text) : byteLength (s ++ t) = byteLength s + byteLength t := by
  induction s with
  | nil => simp [byteLength]
  | cons c s ih => rw [List.cons_append, byteLength, ih, byteLength, Nat.add_assoc]

theorem byteLength_le_of_sublist {s t : Text} (h : s.Sublist t) : byteLength s ≤ byteLength t := by
  induction h with
  | slnil => exact Nat.le_refl _
  | cons c _ ih => exact Nat.le_add_left_of_le ih
  | cons_cons c _ ih => exact Nat.add_le_add_left ih _

theorem byteLength_le_of_isPrefix {s t : Text} (h : s <+: t) : byteLength s ≤ byteLength t :=
  byteLength_le_of_sublist h.sublist

theorem byteLength_replicate (n : Nat) (c : Char) :
    byteLength (List.replicate n c) = n * c.utf8Size := by
  induction n with
  | zero => rw [Nat.zero_mul]; rfl
  | succ n ih => rw [List.replicate_succ, byteLength, ih, Nat.succ_mul, Nat.add_comm]

theorem byteLength_takeBytes_le (budget : Nat) (s : Text) :
    byteLength (takeBytes budget s) ≤ budget := by
  induction s generalizing budget with
  | nil => simp [takeBytes, byteLength]
  | cons c s ih =>
    unfold takeBytes
    split
    · have := ih (budget - c.utf8Size)
      rw [byteLength]
      omega
    · simp [byteLength]

theorem takeBytes_isPrefix (budget : Nat) (s : Text) : takeBytes budget s <+: s := by
  induction s generalizing budget with
  | nil => exact List.prefix_refl []
  | cons c s ih =>
    rw [takeBytes]
    split
    · exact List.cons_prefix_cons.2 ⟨rfl, ih _⟩
    · exact List.nil_prefix

theorem takeBytes_append {budget : Nat} {s : Text} (h : byteLength s ≤ budget) (t : Text) :
    takeBytes budget (s ++ t) = s ++ takeBytes (budget - byteLength s) t := by
  induction s generalizing budget with
  | nil => rfl
  | cons c s ih =>
    rw [byteLength] at h
    rw [List.cons_append, takeBytes, if_pos (by omega), ih (by omega), byteLength, Nat.sub_sub]
    rfl

theorem takeBytes_eq_self {budget : Nat} {s : Text} (h : byteLength s ≤ budget) :
    takeBytes budget s = s := by
  have happend := takeBytes_append h []
  rwa [List.append_nil, takeBytes, List.append_nil] at happend

end Unmask.Text
