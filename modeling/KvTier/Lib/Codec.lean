import Mathlib.Tactic

/-!
# Fixed-size binary layouts

A `Codec` lays values of a type out in a fixed number of bytes and reads them back from the front of
a byte string.
-/

namespace KvTier.Lib

/-! ## Little-endian numbers -/

/-- The `n` lowest bytes of a number, lowest first. -/
def leBytes : Nat → Nat → List UInt8
  | 0, _ => []
  | n + 1, v => UInt8.ofNat v :: leBytes n (v / 256)

/-- The number with these bytes, lowest first. -/
def leNat : List UInt8 → Nat
  | [] => 0
  | b :: bs => b.toNat + 256 * leNat bs

@[simp]
theorem length_leBytes (n v : Nat) : (leBytes n v).length = n := by
  induction n generalizing v with
  | zero => rfl
  | succ n ih => simp [leBytes, ih]

theorem leNat_leBytes (n v : Nat) : leNat (leBytes n v) = v % 256 ^ n := by
  induction n generalizing v with
  | zero => simp [leBytes, leNat, Nat.mod_one]
  | succ n ih =>
    have hbyte : (UInt8.ofNat v).toNat = v % 256 := by simp
    rw [leBytes, leNat, ih, hbyte, Nat.pow_succ', Nat.mod_mul]

/-! ## Codecs -/

/-- A layout in a fixed number of bytes. -/
structure Codec (α : Type) where
  size : Nat
  enc : α → List UInt8
  dec : List UInt8 → α
  length_enc : ∀ a, (enc a).length = size
  dec_enc : ∀ a rest, dec (enc a ++ rest) = a

namespace Codec

variable {α β : Type}

attribute [simp] length_enc dec_enc

/-- A number type of `n` bytes. -/
def num (n : Nat) (toNat : α → Nat) (ofNat : Nat → α) (hlt : ∀ a, toNat a < 256 ^ n)
    (hof : ∀ a, ofNat (toNat a) = a) : Codec α where
  size := n
  enc a := leBytes n (toNat a)
  dec bs := ofNat (leNat (bs.take n))
  length_enc a := length_leBytes n _
  dec_enc a rest := by
    rw [List.take_left' (length_leBytes n _), leNat_leBytes, Nat.mod_eq_of_lt (hlt a), hof]

/-- `uint8_t`. -/
def u8 : Codec UInt8 :=
  num 1 UInt8.toNat UInt8.ofNat (fun a => a.toNat_lt) fun a => by simp

/-- `uint16_t`. -/
def u16 : Codec UInt16 :=
  num 2 UInt16.toNat UInt16.ofNat (fun a => a.toNat_lt) fun a => by simp

/-- `uint32_t`. -/
def u32 : Codec UInt32 :=
  num 4 UInt32.toNat UInt32.ofNat (fun a => a.toNat_lt) fun a => by simp

/-- `uint64_t`. -/
def u64 : Codec UInt64 :=
  num 8 UInt64.toNat UInt64.ofNat (fun a => a.toNat_lt) fun a => by simp

/-- Two values one behind the other. -/
def pair (c : Codec α) (d : Codec β) : Codec (α × β) where
  size := c.size + d.size
  enc x := c.enc x.1 ++ d.enc x.2
  dec bs := (c.dec bs, d.dec (bs.drop c.size))
  length_enc x := by simp
  dec_enc x rest := by
    rw [List.append_assoc, dec_enc, List.drop_left' (c.length_enc x.1), dec_enc]

/-- The same layout for a type that holds the same data. -/
def iso (c : Codec α) (f : α → β) (g : β → α) (h : ∀ b, f (g b) = b) : Codec β where
  size := c.size
  enc b := c.enc (g b)
  dec bs := f (c.dec bs)
  length_enc b := c.length_enc _
  dec_enc b rest := by rw [c.dec_enc, h]

/-- `uint8_t[n]`. -/
def bytes (n : Nat) : Codec (Vector UInt8 n) where
  size := n
  enc v := v.toList
  dec bs := .ofFn fun i => bs.getD i 0
  length_enc _ := Vector.length_toList
  dec_enc v rest := by
    ext i hi
    have hlen : i < v.toList.length := by rw [Vector.length_toList]; exact hi
    simp [List.getElem?_append_left hlen, List.getElem?_eq_getElem hlen]

/-! ## Arrays -/

/-- The elements of an array one behind the other. -/
def encAll (c : Codec α) (xs : List α) : List UInt8 := xs.flatMap c.enc

def decAll (c : Codec α) : Nat → List UInt8 → List α
  | 0, _ => []
  | n + 1, bs => c.dec bs :: decAll c n (bs.drop c.size)

@[simp]
theorem length_encAll (c : Codec α) (xs : List α) :
    (c.encAll xs).length = xs.length * c.size := by
  induction xs with
  | nil => simp [encAll]
  | cons x xs ih =>
    simp only [encAll, List.flatMap_cons, List.length_append, length_enc, List.length_cons] at ih ⊢
    rw [ih]
    ring

theorem decAll_encAll (c : Codec α) (xs : List α) (rest : List UInt8) :
    c.decAll xs.length (c.encAll xs ++ rest) = xs := by
  induction xs with
  | nil => rfl
  | cons x xs ih =>
    have hcons : c.encAll (x :: xs) ++ rest = c.enc x ++ (c.encAll xs ++ rest) := by
      simp [encAll]
    rw [hcons, List.length_cons, decAll, dec_enc, List.drop_left' (c.length_enc x), ih]

end Codec

/-! ## Copies into a buffer -/

/-- A copy of `bs` to offset `off` of a buffer. -/
def overwrite (buf : List UInt8) (off : Nat) (bs : List UInt8) : List UInt8 :=
  buf.take off ++ bs ++ buf.drop (off + bs.length)

theorem overwrite_overwrite {buf : List UInt8} {off : Nat} (h : off ≤ buf.length)
    (a b : List UInt8) :
    overwrite (overwrite buf off a) (off + a.length) b = overwrite buf off (a ++ b) := by
  have hlen : (buf.take off ++ a).length = off + a.length := by
    simp [Nat.min_eq_left h]
  unfold overwrite
  rw [List.take_left' hlen, ← List.drop_drop, List.drop_left' hlen, List.drop_drop]
  simp [Nat.add_assoc]

/-- A copy to a running pointer into a buffer. -/
def copyTo (dst : List UInt8 × Nat) (bs : List UInt8) : List UInt8 × Nat :=
  (overwrite dst.1 dst.2 bs, dst.2 + bs.length)

theorem copyTo_if {buf : List UInt8} {off : Nat} (h : off ≤ buf.length) (a b : List UInt8)
    (c : Prop) [Decidable c] :
    (if c then copyTo (copyTo (buf, off) a) b else copyTo (buf, off) a) =
      copyTo (buf, off) (a ++ if c then b else []) := by
  unfold copyTo
  split
  · rw [overwrite_overwrite h, List.length_append, Nat.add_assoc]
  · rw [List.append_nil]

theorem overwrite_zeros (used bs : List UInt8) (n : Nat) :
    overwrite (used ++ List.replicate n 0) used.length bs =
      (used ++ bs) ++ List.replicate (n - bs.length) 0 := by
  unfold overwrite
  rw [List.take_left' rfl, ← List.drop_drop, List.drop_left' rfl, List.drop_replicate]

end KvTier.Lib
