import Mathlib.Tactic

/-!
# Byte buffers and little-endian fields

A buffer has a size and a content; a write or read outside of it has no result.
A field written at one place is read back from there and from nowhere that does not
overlap it. Numbers are laid out in little-endian order.
-/

namespace ByteBuffer

abbrev Byte := BitVec 8

/-- `size` bytes at the addresses `0, .., size - 1`. -/
structure Buffer where
  size : ℕ
  byteAt : ℤ → Byte

/-- The `len` bytes from `addr` on lie in the buffer. -/
def Buffer.InBounds (b : Buffer) (addr : ℤ) (len : ℕ) : Prop :=
  0 ≤ addr ∧ addr + len ≤ b.size

instance (b : Buffer) (addr : ℤ) (len : ℕ) : Decidable (b.InBounds addr len) := by
  unfold Buffer.InBounds; infer_instance

/-- The content after `bs` is stored from `addr` on. -/
def Buffer.store (b : Buffer) (addr : ℤ) (bs : List Byte) : Buffer :=
  { b with
    byteAt := fun a =>
      if addr ≤ a ∧ a < addr + bs.length then bs.getD (a - addr).toNat 0 else b.byteAt a }

/-- The bytes from `addr` on. -/
def Buffer.load (b : Buffer) (addr : ℤ) (len : ℕ) : List Byte :=
  (List.range len).map fun k : ℕ => b.byteAt (addr + k)

/-- A write, undefined outside of the buffer. -/
def Buffer.write (b : Buffer) (addr : ℤ) (bs : List Byte) : Option Buffer :=
  if b.InBounds addr bs.length then some (b.store addr bs) else none

/-- A read, undefined outside of the buffer. -/
def Buffer.read (b : Buffer) (addr : ℤ) (len : ℕ) : Option (List Byte) :=
  if b.InBounds addr len then some (b.load addr len) else none

/-- A list of writes, in order. -/
def Buffer.writeAll (b : Buffer) : List (ℤ × List Byte) → Option Buffer
  | [] => some b
  | w :: ws => (b.write w.1 w.2).bind fun b' => b'.writeAll ws

theorem Buffer.write_of_inBounds {b : Buffer} {addr : ℤ} {bs : List Byte}
    (h : b.InBounds addr bs.length) : b.write addr bs = some (b.store addr bs) := if_pos h

theorem Buffer.write_size {b b' : Buffer} {addr : ℤ} {bs : List Byte}
    (h : b.write addr bs = some b') : b'.size = b.size := by
  rw [Buffer.write, Option.ite_none_right_eq_some, Option.some.injEq] at h
  rw [← h.2]
  rfl

theorem Buffer.writeAll_size {ws : List (ℤ × List Byte)} {b b' : Buffer}
    (h : b.writeAll ws = some b') : b'.size = b.size := by
  induction ws generalizing b with
  | nil =>
    obtain rfl := Option.some.inj h
    rfl
  | cons w ws ih =>
    obtain ⟨b₁, hwrite, hrest⟩ := Option.bind_eq_some_iff.mp h
    rw [ih hrest, Buffer.write_size hwrite]

theorem Buffer.read_of_inBounds {b : Buffer} {addr : ℤ} {len : ℕ} (h : b.InBounds addr len) :
    b.read addr len = some (b.load addr len) := if_pos h

/-- A field is read back where it was stored. -/
theorem Buffer.load_store_self (b : Buffer) (addr : ℤ) {bs : List Byte} {len : ℕ}
    (h : bs.length = len) : (b.store addr bs).load addr len = bs := by
  subst h
  refine List.ext_getElem (by simp [Buffer.load]) fun k hk hk' => ?_
  simp only [Buffer.load, Buffer.store, List.getElem_map, List.getElem_range]
  rw [if_pos (by omega)]
  have hidx : (addr + (k : ℤ) - addr).toNat = k := by omega
  rw [hidx, List.getD_eq_getElem?_getD, List.getElem?_eq_getElem hk', Option.getD_some]

/-- A field that does not overlap the stored one keeps its content. -/
theorem Buffer.load_store_of_disjoint (b : Buffer) {addr addr' : ℤ} {bs : List Byte} {len : ℕ}
    (h : addr' + len ≤ addr ∨ addr + bs.length ≤ addr') :
    (b.store addr bs).load addr' len = b.load addr' len := by
  rw [Buffer.load]
  refine List.map_congr_left fun k hk => ?_
  have hk' : k < len := List.mem_range.mp hk
  simp only [Buffer.store]
  rw [if_neg (by omega)]

/-- Two fields that share no byte. -/
def Apart (f g : ℤ × List Byte) : Prop :=
  f.1 + f.2.length ≤ g.1 ∨ g.1 + g.2.length ≤ f.1

/-- The buffer has the bytes of the field at the field's place. -/
def Buffer.Holds (b : Buffer) (f : ℤ × List Byte) : Prop :=
  b.read f.1 f.2.length = some f.2

theorem Buffer.Holds.store {b : Buffer} {f : ℤ × List Byte} (h : b.Holds f) {g : ℤ × List Byte}
    (hfg : Apart f g) : (b.store g.1 g.2).Holds f := by
  rw [Buffer.Holds, Buffer.read] at h ⊢
  split at h
  · next hin =>
    rw [if_pos (show (b.store g.1 g.2).InBounds f.1 f.2.length from hin),
      b.load_store_of_disjoint hfg]
    exact h
  · cases h

theorem Buffer.holds_store_self {b : Buffer} {f : ℤ × List Byte}
    (h : b.InBounds f.1 f.2.length) : (b.store f.1 f.2).Holds f := by
  rw [Buffer.Holds, Buffer.read_of_inBounds (show (b.store f.1 f.2).InBounds f.1 f.2.length from h),
    b.load_store_self f.1 rfl]

/-- Writes that lie in the buffer and keep apart from each other all succeed, and the
buffer then holds every one of them and what it held apart from them. -/
theorem Buffer.writeAll_holds {ws : List (ℤ × List Byte)} {b : Buffer}
    (hin : ∀ w ∈ ws, b.InBounds w.1 w.2.length) (hapart : ws.Pairwise Apart) :
    ∃ b', b.writeAll ws = some b' ∧ b'.size = b.size ∧ (∀ w ∈ ws, b'.Holds w) ∧
      ∀ f, b.Holds f → (∀ w ∈ ws, Apart f w) → b'.Holds f := by
  induction ws generalizing b with
  | nil => exact ⟨b, rfl, rfl, by simp, fun f hf _ => hf⟩
  | cons w ws ih =>
    obtain ⟨hw, hws⟩ := List.pairwise_cons.mp hapart
    have hinw := hin w List.mem_cons_self
    obtain ⟨b', hb', hsize, hall, hframe⟩ := ih (b := b.store w.1 w.2)
      (fun v hv => hin v (List.mem_cons_of_mem w hv)) hws
    refine ⟨b', ?_, hsize, ?_, ?_⟩
    · rw [Buffer.writeAll, Buffer.write_of_inBounds hinw, Option.bind_some, hb']
    · intro v hv
      rcases List.mem_cons.mp hv with rfl | hv
      · exact hframe v (Buffer.holds_store_self hinw) hw
      · exact hall v hv
    · intro f hf hfar
      exact hframe f (hf.store (hfar w List.mem_cons_self)) fun v hv =>
        hfar v (List.mem_cons_of_mem w hv)

/-- The `k` low bytes of `x`, least significant first. -/
def leBytes : ℕ → ℕ → List Byte
  | 0, _ => []
  | k + 1, x => BitVec.ofNat 8 x :: leBytes k (x / 256)

/-- The number a list of bytes stands for, least significant first. -/
def ofLeBytes : List Byte → ℕ
  | [] => 0
  | b :: bs => b.toNat + 256 * ofLeBytes bs

@[simp] theorem leBytes_length (k x : ℕ) : (leBytes k x).length = k := by
  induction k generalizing x with
  | zero => rfl
  | succ k ih => rw [leBytes, List.length_cons, ih]

theorem ofLeBytes_leBytes (k x : ℕ) : ofLeBytes (leBytes k x) = x % 256 ^ k := by
  induction k generalizing x with
  | zero => simp [leBytes, ofLeBytes, Nat.mod_one]
  | succ k ih =>
    have hbyte : (BitVec.ofNat 8 x).toNat = x % 256 := BitVec.toNat_ofNat x 8
    rw [leBytes, ofLeBytes, ih, hbyte, pow_succ', Nat.mod_mul]

/-- A 32-bit `int`. -/
def intBytes (x : BitVec 32) : List Byte := leBytes 4 x.toNat

/-- The 64 bits of a `double`. -/
def doubleBytes (x : BitVec 64) : List Byte := leBytes 8 x.toNat

def ofIntBytes (bs : List Byte) : BitVec 32 := BitVec.ofNat 32 (ofLeBytes bs)

def ofDoubleBytes (bs : List Byte) : BitVec 64 := BitVec.ofNat 64 (ofLeBytes bs)

@[simp] theorem intBytes_length (x : BitVec 32) : (intBytes x).length = 4 := leBytes_length 4 _

@[simp] theorem doubleBytes_length (x : BitVec 64) : (doubleBytes x).length = 8 :=
  leBytes_length 8 _

@[simp] theorem ofIntBytes_intBytes (x : BitVec 32) : ofIntBytes (intBytes x) = x := by
  have hlt : x.toNat < 256 ^ 4 := x.isLt
  rw [ofIntBytes, intBytes, ofLeBytes_leBytes, Nat.mod_eq_of_lt hlt, BitVec.ofNat_toNat,
    BitVec.setWidth_eq]

@[simp] theorem ofDoubleBytes_doubleBytes (x : BitVec 64) :
    ofDoubleBytes (doubleBytes x) = x := by
  have hlt : x.toNat < 256 ^ 8 := x.isLt
  rw [ofDoubleBytes, doubleBytes, ofLeBytes_leBytes, Nat.mod_eq_of_lt hlt, BitVec.ofNat_toNat,
    BitVec.setWidth_eq]

end ByteBuffer
