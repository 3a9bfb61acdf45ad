import Mathlib.Data.Fin.Basic
import Mathlib.Tactic

set_option autoImplicit false

/-! # Byte blocks

A block of `w` bytes is a function on `Fin w`. `slice` reads `len` consecutive bytes, `poke`
overwrites them; both take any offset, and a position past the end of the block reads as `0`
and is not written. 32-bit values are stored in little-endian order.

`Agree k b b'` says that two blocks agree below position `k`: reading below `k` cannot tell
them apart.
-/

namespace Bytes

/-- A block of `w` bytes. -/
abbrev Block (w : Nat) : Type := Fin w → UInt8

variable {w len : Nat}

/-- The byte at position `i`. -/
def peek (b : Block w) (i : Nat) : UInt8 := if h : i < w then b ⟨i, h⟩ else 0

/-- The `len` bytes from position `off` on. -/
def slice (b : Block w) (off len : Nat) : Block len := fun i => peek b (off + i)

/-- Overwrite the bytes from position `off` on with `src`. -/
def poke (b : Block w) (off : Nat) (src : Block len) : Block w := fun i =>
  if off ≤ i.val ∧ i.val < off + len then peek src (i.val - off) else b i

/-- The first `k` bytes, as a list. -/
def take (b : Block w) (k : Nat) : List UInt8 := (List.range k).map (peek b)

/-- The `n` bytes from position `off` on, as a list. -/
def read (b : Block w) (off n : Nat) : List UInt8 := (List.range n).map fun i => peek b (off + i)

/-- The block that starts with the bytes of `l` and is `fill` from there on. -/
def ofList (l : List UInt8) (fill : UInt8) : Block w := fun i => l.getD i.val fill

theorem peek_poke (b : Block w) (off : Nat) (src : Block len) (i : Nat) (hi : i < w) :
    peek (poke b off src) i
      = if off ≤ i ∧ i < off + len then peek src (i - off) else peek b i := by
  simp only [peek, poke, hi, dif_pos]

theorem peek_poke_of_lt {b : Block w} {off : Nat} {src : Block len} {i : Nat} (hi : i < off) :
    peek (poke b off src) i = peek b i := by
  by_cases hw : i < w
  · rw [peek_poke _ _ _ _ hw, if_neg (by omega)]
  · simp [peek, hw]

theorem peek_poke_of_ge {b : Block w} {off : Nat} {src : Block len} {i : Nat}
    (hi : off + len ≤ i) : peek (poke b off src) i = peek b i := by
  by_cases hw : i < w
  · rw [peek_poke _ _ _ _ hw, if_neg (by omega)]
  · simp [peek, hw]

@[simp] theorem slice_poke_same (b : Block w) (off : Nat) (src : Block len)
    (h : off + len ≤ w) : slice (poke b off src) off len = src := by
  funext i
  have hi := i.isLt
  rw [slice, peek_poke _ _ _ _ (by omega), if_pos (by omega),
    show off + i.val - off = i.val by omega, peek, dif_pos hi]

theorem slice_poke_of_disjoint {b : Block w} {off off' k : Nat} {src : Block len}
    (h : off + k ≤ off' ∨ off' + len ≤ off) :
    slice (poke b off' src) off k = slice b off k := by
  funext i
  have hi := i.isLt
  rcases h with h | h
  · exact peek_poke_of_lt (by omega)
  · exact peek_poke_of_ge (by omega)

/-- Overwriting with what is there changes nothing. -/
theorem poke_slice_self (b : Block w) (off len : Nat) : poke b off (slice b off len) = b := by
  funext i
  unfold poke
  split
  · rename_i hi
    rw [peek, dif_pos (by omega), slice, show off + (i.val - off) = i.val by omega, peek,
      dif_pos i.isLt]
  · rfl

theorem take_getElem? (b : Block w) {k i : Nat} (h : i < k) :
    (take b k)[i]? = some (peek b i) := by
  simp [take, h]

@[simp] theorem read_length (b : Block w) (off n : Nat) : (read b off n).length = n := by
  simp [read]

/-- Reading back the bytes that were written from a list. -/
theorem read_poke_ofList (b : Block w) (off : Nat) (l : List UInt8) (fill : UInt8)
    (hn : len ≤ l.length) (h : off + len ≤ w) :
    read (poke b off (ofList l fill : Block len)) off len = l.take len := by
  apply List.ext_getElem
  · rw [read_length, List.length_take]
    omega
  · intro i hi hi'
    rw [read_length] at hi
    simp only [read, List.getElem_map, List.getElem_range, List.getElem_take]
    rw [peek_poke _ _ _ _ (by omega), if_pos (by omega), show off + i - off = i by omega, peek,
      dif_pos hi]
    simp [ofList, List.getElem?_eq_getElem (show i < l.length by omega)]

/-! ## Agreement -/

/-- The two blocks agree below position `k`. -/
def Agree (k : Nat) (b b' : Block w) : Prop := ∀ i < k, peek b i = peek b' i

theorem Agree.refl (k : Nat) (b : Block w) : Agree k b b := fun _ _ => rfl

theorem Agree.mono {k j : Nat} {b b' : Block w} (h : Agree k b b') (hj : j ≤ k) :
    Agree j b b' := fun i hi => h i (by omega)

theorem Agree.trans {k : Nat} {b b' b'' : Block w} (h : Agree k b b') (h' : Agree k b' b'') :
    Agree k b b'' := fun i hi => (h i hi).trans (h' i hi)

/-- Overwriting leaves what comes before. -/
theorem agree_poke {k off : Nat} (b : Block w) (src : Block len) (h : k ≤ off) :
    Agree k (Bytes.poke b off src) b := fun _ hi => peek_poke_of_lt (lt_of_lt_of_le hi h)

theorem Agree.slice {k off n : Nat} {b b' : Block w} (h : Agree k b b') (ho : off + n ≤ k) :
    slice b off n = slice b' off n := by
  funext i
  exact h _ (by have := i.isLt; omega)

theorem Agree.take {k : Nat} {b b' : Block w} (h : Agree k b b') : take b k = take b' k := by
  refine List.map_congr_left fun i hi => h i ?_
  simpa using hi

theorem agree_of_take {k : Nat} {b b' : Block w} (h : Bytes.take b k = Bytes.take b' k) :
    Agree k b b' := by
  intro i hi
  have := congrArg (fun l => l[i]?) h
  simpa [take_getElem? _ hi] using this

/-- Overwriting both with the same bytes keeps the agreement, and extends it over a block
that starts within it. -/
theorem Agree.poke {k : Nat} {b b' : Block w} {off : Nat} (src : Block len)
    (h : Agree k b b') (ho : off ≤ k) :
    Agree (max k (off + len)) (poke b off src) (poke b' off src) := by
  intro i hi
  by_cases hw : i < w
  · rw [peek_poke _ _ _ _ hw, peek_poke _ _ _ _ hw]
    split
    · rfl
    · exact h i (by omega)
  · simp [peek, hw]

theorem Agree.poke_same {k : Nat} {b b' : Block w} {off : Nat} (src : Block len)
    (h : Agree k b b') : Agree k (Bytes.poke b off src) (Bytes.poke b' off src) := by
  intro i hi
  by_cases hw : i < w
  · rw [peek_poke _ _ _ _ hw, peek_poke _ _ _ _ hw]
    split
    · rfl
    · exact h i hi
  · simp [peek, hw]

/-! ## Little-endian values -/

/-- The one-byte block of `x`. -/
def byte (x : UInt8) : Block 1 := fun _ => x

/-- The two bytes of `x`, least significant first. -/
def le16 (x : UInt16) : Block 2 := fun i => UInt8.ofNat (x.toNat / 256 ^ i.val)

/-- The value stored in two bytes, least significant first. -/
def ofLe16 (b : Block 2) : UInt16 := UInt16.ofNat ((b 0).toNat + 256 * (b 1).toNat)

@[simp] theorem ofLe16_le16 (x : UInt16) : ofLe16 (le16 x) = x := by
  have hx := x.toNat_lt
  apply UInt16.toNat_inj.mp
  simp only [ofLe16, le16, UInt8.toNat_ofNat', UInt16.toNat_ofNat', Fin.val_zero, Fin.val_one]
  omega

/-- The four bytes of `x`, least significant first. -/
def le32 (x : UInt32) : Block 4 := fun i => UInt8.ofNat (x.toNat / 256 ^ i.val)

/-- The value stored in four bytes, least significant first. -/
def ofLe32 (b : Block 4) : UInt32 :=
  UInt32.ofNat ((b 0).toNat + 256 * (b 1).toNat + 65536 * (b 2).toNat
    + 16777216 * (b 3).toNat)

@[simp] theorem ofLe32_le32 (x : UInt32) : ofLe32 (le32 x) = x := by
  have hx := x.toNat_lt
  apply UInt32.toNat_inj.mp
  simp only [ofLe32, le32, UInt8.toNat_ofNat', UInt32.toNat_ofNat', Fin.val_zero, Fin.val_one,
    Fin.val_two, show ((3 : Fin 4) : Nat) = 3 from rfl]
  omega

@[simp] theorem le32_ofLe32 (b : Block 4) : le32 (ofLe32 b) = b := by
  have h0 := (b 0).toNat_lt
  have h1 := (b 1).toNat_lt
  have h2 := (b 2).toNat_lt
  have h3 := (b 3).toNat_lt
  funext i
  apply UInt8.toNat_inj.mp
  simp only [ofLe32, le32, UInt8.toNat_ofNat', UInt32.toNat_ofNat']
  match i with
  | 0 => simp only [Fin.val_zero]; omega
  | 1 => simp only [Fin.val_one]; omega
  | 2 => simp only [Fin.val_two]; omega
  | 3 => simp only [show ((3 : Fin 4) : Nat) = 3 from rfl]; omega

end Bytes
