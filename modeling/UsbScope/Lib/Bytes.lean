import Mathlib

/-! # Byte strings and fixed-width integers

A natural number as `w` bytes in either byte order, and the field at a
position of a byte string. The reading lemmas step over a prefix whose length
is known, so a field of a concatenation is found by `simp` with the lengths of
the parts. -/
namespace UsbScope.Lib

abbrev Bytes := List UInt8

/-- The `w` low bytes of `n`, least significant first. -/
def leBytes : Nat → Nat → Bytes
  | 0, _ => []
  | w + 1, n => UInt8.ofNat n :: leBytes w (n / 256)

/-- The number a byte string denotes, least significant byte first. -/
def leNat : Bytes → Nat
  | [] => 0
  | b :: rest => b.toNat + 256 * leNat rest

@[simp] theorem length_leBytes (w n : Nat) : (leBytes w n).length = w := by
  induction w generalizing n with
  | zero => rfl
  | succ w ih => simp [leBytes, ih]

theorem leNat_lt (b : Bytes) : leNat b < 256 ^ b.length := by
  induction b with
  | nil => simp [leNat]
  | cons x rest ih =>
    have hx := x.toNat_lt
    simp only [leNat, List.length_cons, pow_succ]
    omega

theorem leNat_leBytes {w n : Nat} (h : n < 256 ^ w) : leNat (leBytes w n) = n := by
  induction w generalizing n with
  | zero => simp at h; simp [leBytes, leNat, h]
  | succ w ih =>
    have hq : n / 256 < 256 ^ w := by
      rw [pow_succ] at h
      exact Nat.div_lt_of_lt_mul (by omega)
    rw [leBytes, leNat, ih hq, UInt8.toNat_ofNat']
    omega

theorem leBytes_leNat (b : Bytes) : leBytes b.length (leNat b) = b := by
  induction b with
  | nil => rfl
  | cons x rest ih =>
    have hx := x.toNat_lt
    have hd : (x.toNat + 256 * leNat rest) / 256 = leNat rest := by omega
    have hm : UInt8.ofNat (x.toNat + 256 * leNat rest) = x := by
      apply UInt8.toNat_inj.mp
      rw [UInt8.toNat_ofNat']
      omega
    simp only [List.length_cons, leBytes, leNat, hd, hm, ih]

/-! ## Byte orders -/

inductive ByteOrder where
  | little
  | big
deriving DecidableEq, Repr

namespace ByteOrder

def bytes (o : ByteOrder) (w n : Nat) : Bytes :=
  match o with
  | little => leBytes w n
  | big => (leBytes w n).reverse

def nat (o : ByteOrder) (b : Bytes) : Nat :=
  match o with
  | little => leNat b
  | big => leNat b.reverse

@[simp] theorem length_bytes (o : ByteOrder) (w n : Nat) : (o.bytes w n).length = w := by
  cases o <;> simp [bytes]

theorem nat_bytes (o : ByteOrder) {w n : Nat} (h : n < 256 ^ w) : o.nat (o.bytes w n) = n := by
  cases o <;> simp [nat, bytes, leNat_leBytes h]

theorem bytes_nat (o : ByteOrder) (b : Bytes) : o.bytes b.length (o.nat b) = b := by
  cases o with
  | little => exact leBytes_leNat b
  | big =>
    have h := leBytes_leNat b.reverse
    rw [List.length_reverse] at h
    rw [bytes, nat, h, List.reverse_reverse]

theorem nat_lt_pow (o : ByteOrder) (b : Bytes) : o.nat b < 256 ^ b.length := by
  cases o with
  | little => exact leNat_lt b
  | big => simpa [nat] using leNat_lt b.reverse

end ByteOrder

/-! ## Fields at a position -/

/-- The `w`-byte number at position `pos`. -/
def field (o : ByteOrder) (w pos : Nat) (b : Bytes) : Nat := o.nat ((b.drop pos).take w)

theorem field_append_right {o : ByteOrder} {w pos : Nat} {l r : Bytes} (h : l.length ≤ pos) :
    field o w pos (l ++ r) = field o w (pos - l.length) r := by
  rw [field, field, List.drop_append, List.drop_eq_nil_of_le h, List.nil_append]

theorem field_append_left {o : ByteOrder} {w pos : Nat} {l r : Bytes} (h : pos + w ≤ l.length) :
    field o w pos (l ++ r) = field o w pos l := by
  have hd : w ≤ (l.drop pos).length := by rw [List.length_drop]; omega
  rw [field, field, List.drop_append_of_le_length (by omega), List.take_append_of_le_length hd]

/-- A field does not see what is cut off behind it. -/
theorem field_take {o : ByteOrder} {w pos n : Nat} (b : Bytes) (h : pos + w ≤ n) :
    field o w pos (b.take n) = field o w pos b := by
  rw [field, field, List.drop_take, List.take_take, min_eq_left (by omega)]

theorem field_cons {o : ByteOrder} {w pos : Nat} {x : UInt8} {b : Bytes} (h : 0 < pos) :
    field o w pos (x :: b) = field o w (pos - 1) b := by
  obtain ⟨k, rfl⟩ : ∃ k, pos = k + 1 := ⟨pos - 1, by omega⟩
  simp [field]

theorem field_bytes {o : ByteOrder} {w n : Nat} (h : n < 256 ^ w) :
    field o w 0 (o.bytes w n) = n := by
  have ht : (o.bytes w n).take w = o.bytes w n := List.take_of_length_le (by simp)
  rw [field, List.drop_zero, ht, o.nat_bytes h]

def u16 (o : ByteOrder) (pos : Nat) (b : Bytes) : UInt16 := UInt16.ofNat (field o 2 pos b)

def u32 (o : ByteOrder) (pos : Nat) (b : Bytes) : UInt32 := UInt32.ofNat (field o 4 pos b)

def u64 (o : ByteOrder) (pos : Nat) (b : Bytes) : UInt64 := UInt64.ofNat (field o 8 pos b)

/-- The byte at position `pos`; every caller has checked the length. -/
def byte (pos : Nat) (b : Bytes) : UInt8 := b.getD pos 0

@[simp] theorem u16_bytes (o : ByteOrder) (x : UInt16) (r : Bytes) :
    u16 o 0 (o.bytes 2 x.toNat ++ r) = x := by
  rw [u16, field_append_left (by simp), field_bytes x.toNat_lt, UInt16.ofNat_toNat]

@[simp] theorem u32_bytes (o : ByteOrder) (x : UInt32) (r : Bytes) :
    u32 o 0 (o.bytes 4 x.toNat ++ r) = x := by
  rw [u32, field_append_left (by simp), field_bytes x.toNat_lt, UInt32.ofNat_toNat]

@[simp] theorem u64_bytes (o : ByteOrder) (x : UInt64) (r : Bytes) :
    u64 o 0 (o.bytes 8 x.toNat ++ r) = x := by
  rw [u64, field_append_left (by simp), field_bytes x.toNat_lt, UInt64.ofNat_toNat]

theorem u16_skip {o : ByteOrder} {pos : Nat} {l r : Bytes} (h : l.length ≤ pos) :
    u16 o pos (l ++ r) = u16 o (pos - l.length) r := by rw [u16, u16, field_append_right h]

theorem u32_skip {o : ByteOrder} {pos : Nat} {l r : Bytes} (h : l.length ≤ pos) :
    u32 o pos (l ++ r) = u32 o (pos - l.length) r := by rw [u32, u32, field_append_right h]

theorem u64_skip {o : ByteOrder} {pos : Nat} {l r : Bytes} (h : l.length ≤ pos) :
    u64 o pos (l ++ r) = u64 o (pos - l.length) r := by rw [u64, u64, field_append_right h]

@[simp] theorem u32_bytes_end (o : ByteOrder) (x : UInt32) : u32 o 0 (o.bytes 4 x.toNat) = x := by
  simpa using u32_bytes o x []

@[simp] theorem u64_bytes_end (o : ByteOrder) (x : UInt64) : u64 o 0 (o.bytes 8 x.toNat) = x := by
  simpa using u64_bytes o x []

theorem u16_cons {o : ByteOrder} {pos : Nat} {x : UInt8} {b : Bytes} (h : 0 < pos) :
    u16 o pos (x :: b) = u16 o (pos - 1) b := by rw [u16, u16, field_cons h]

theorem u32_cons {o : ByteOrder} {pos : Nat} {x : UInt8} {b : Bytes} (h : 0 < pos) :
    u32 o pos (x :: b) = u32 o (pos - 1) b := by rw [u32, u32, field_cons h]

theorem byte_cons {pos : Nat} {x : UInt8} {b : Bytes} (h : 0 < pos) :
    byte pos (x :: b) = byte (pos - 1) b := by
  obtain ⟨k, rfl⟩ : ∃ k, pos = k + 1 := ⟨pos - 1, by omega⟩
  simp [byte]

@[simp] theorem byte_head (x : UInt8) (b : Bytes) : byte 0 (x :: b) = x := rfl

theorem byte_skip {pos : Nat} {l r : Bytes} (h : l.length ≤ pos) :
    byte pos (l ++ r) = byte (pos - l.length) r := by
  simp only [byte, List.getD_eq_getElem?_getD, List.getElem?_append_right h]

theorem u32_take {o : ByteOrder} {pos n : Nat} (b : Bytes) (h : pos + 4 ≤ n) :
    u32 o pos (b.take n) = u32 o pos b := by rw [u32, u32, field_take b h]

theorem u64_take {o : ByteOrder} {pos n : Nat} (b : Bytes) (h : pos + 8 ≤ n) :
    u64 o pos (b.take n) = u64 o pos b := by rw [u64, u64, field_take b h]

theorem byte_take {pos n : Nat} (b : Bytes) (h : pos < n) : byte pos (b.take n) = byte pos b := by
  simp only [byte, List.getD_eq_getElem?_getD, List.getElem?_take_of_lt h]

theorem u32_drop (o : ByteOrder) (pos k : Nat) (b : Bytes) :
    u32 o pos (b.drop k) = u32 o (k + pos) b := by simp [u32, field, List.drop_drop]

/-! ## Bytes of a field that was read

Encoding a field that was read gives its bytes back, so a byte string is put
together again from its fields, the last one first. -/

section
variable {o : ByteOrder} {pos : Nat} {b : Bytes}

theorem length_piece {w : Nat} (h : pos + w ≤ b.length) : ((b.drop pos).take w).length = w := by
  rw [List.length_take, List.length_drop]
  omega

theorem field_lt_pow {w : Nat} (h : pos + w ≤ b.length) : field o w pos b < 256 ^ w := by
  have := o.nat_lt_pow ((b.drop pos).take w)
  rwa [length_piece h] at this

theorem bytes_field_drop {w : Nat} (h : pos + w ≤ b.length) :
    o.bytes w (field o w pos b) ++ b.drop (pos + w) = b.drop pos := by
  have hpiece := o.bytes_nat ((b.drop pos).take w)
  rw [length_piece h] at hpiece
  rw [field, hpiece, ← List.drop_drop, List.take_append_drop]

theorem bytes_u16_drop (h : pos + 2 ≤ b.length) :
    o.bytes 2 (u16 o pos b).toNat ++ b.drop (pos + 2) = b.drop pos := by
  rw [u16, UInt16.toNat_ofNat_of_lt' (field_lt_pow h), bytes_field_drop h]

theorem bytes_u32_drop (h : pos + 4 ≤ b.length) :
    o.bytes 4 (u32 o pos b).toNat ++ b.drop (pos + 4) = b.drop pos := by
  rw [u32, UInt32.toNat_ofNat_of_lt' (field_lt_pow h), bytes_field_drop h]

theorem bytes_u64_drop (h : pos + 8 ≤ b.length) :
    o.bytes 8 (u64 o pos b).toNat ++ b.drop (pos + 8) = b.drop pos := by
  rw [u64, UInt64.toNat_ofNat_of_lt' (field_lt_pow h), bytes_field_drop h]

theorem byte_drop (h : pos < b.length) : byte pos b :: b.drop (pos + 1) = b.drop pos := by
  rw [List.drop_eq_getElem_cons h, byte, List.getD_eq_getElem b 0 h]

end

/-! ## Words -/

theorem toNat_min (a b : UInt32) : (min a b).toNat = min a.toNat b.toNat := by
  have h : min a b = if a ≤ b then a else b := rfl
  rw [h]
  split
  · rename_i hle
    exact (Nat.min_eq_left hle).symm
  · rename_i hle
    exact (Nat.min_eq_right (Nat.le_of_not_le hle)).symm

theorem toNat_max (a b : UInt32) : (max a b).toNat = max a.toNat b.toNat := by
  have h : max a b = if a ≤ b then b else a := rfl
  rw [h]
  split
  · rename_i hle
    exact (Nat.max_eq_right hle).symm
  · rename_i hle
    exact (Nat.max_eq_left (Nat.le_of_not_le hle)).symm

end UsbScope.Lib
