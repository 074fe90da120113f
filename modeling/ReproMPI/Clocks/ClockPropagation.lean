import ReproMPI.Clocks.GlobalClock
import ReproMPI.Lib.ByteBuffer

/-!
# Clock propagation

Rank 0 flattens its chain of global clocks into a byte buffer and broadcasts it; the other
ranks rebuild the chain over their own base clock. `flattenClock` fills the buffer from
its end, the outermost clock last in memory, and the decoder reads it forwards.

`ExactPropagation` is what the exchange is for. The two size functions and the offset
clock's `flattenClock` look at the next inner clock only, so it holds for chains of one
level and for two levels below a linear model, and for no other chain.
-/

namespace ReproMPI.Clocks

open ByteBuffer

/-- A `double`, as its bits. -/
abbrev Double := BitVec 64

def sizeofInt : ℤ := 4
def sizeofDouble : ℤ := 8

namespace Clock

/-- `get_flattened_this_clock_size_in_bytes`. -/
def getFlattenedThisClockSizeInBytes : Clock Double → ℤ
  | base => 0
  | globalClockOffset _ _ => sizeofInt + sizeofDouble
  | globalClockLM _ _ _ => 1 * sizeofInt + 2 * sizeofDouble

/-- The clock a global clock decorates. -/
def localClock : Clock Double → Clock Double
  | base => base
  | globalClockOffset inner _ => inner
  | globalClockLM inner _ _ => inner

/-- `get_flattened_clock_size_in_bytes`, the same code in both classes: the clock itself
and, unless that is the base clock, the clock it decorates. -/
def getFlattenedClockSizeInBytes (c : Clock Double) : ℤ :=
  c.getFlattenedThisClockSizeInBytes +
    if c.localClock.isBaseClock then 0 else c.localClock.getFlattenedThisClockSizeInBytes

/-- The stores `flatten_clock` makes, in order, as addresses relative to `buf`. -/
def flattenClock : Clock Double → ℤ → List (ℤ × List Byte)
  | base, _ => []
  | globalClockOffset inner offset, endPointer =>
    let endPointer :=
      endPointer - (globalClockOffset inner offset).getFlattenedClockSizeInBytes
    (endPointer, intBytes 0) :: (endPointer + sizeofInt, doubleBytes offset) ::
      if inner.isBaseClock then [] else inner.flattenClock endPointer
  | globalClockLM inner slope intercept, endPointer =>
    let endPointer :=
      endPointer - (globalClockLM inner slope intercept).getFlattenedThisClockSizeInBytes
    (endPointer, intBytes 1) :: (endPointer + sizeofInt, doubleBytes slope) ::
      (endPointer + sizeofInt + sizeofDouble, doubleBytes intercept) ::
      if inner.isBaseClock then [] else inner.flattenClock endPointer

/-- `bytes_needed` on rank 0, the leading int included. -/
def bytesNeeded (c : Clock Double) : ℤ := c.getFlattenedClockSizeInBytes + sizeofInt

/-- The buffer rank 0 broadcasts, written over the fresh memory `garbage`. -/
def encode (garbage : ℤ → Byte) (c : Clock Double) : Option Buffer := do
  let buf : Buffer := { size := c.bytesNeeded.toNat, byteAt := garbage }
  let buf ← buf.writeAll (c.flattenClock c.bytesNeeded)
  buf.write 0 (intBytes (BitVec.ofInt 32 c.getNestedLevel))

end Clock

/-- The variables of the decoding loop. -/
structure DecodeState where
  currentOffset : ℤ
  lastClock : Clock Double
  retClock : Option (Clock Double)

/-- One pass of the decoding loop; an unknown type only skips the type field. -/
def decodeLevel (buf : Buffer) (st : DecodeState) : Option DecodeState := do
  let typeId := ofIntBytes (← buf.read st.currentOffset 4)
  let currentOffset := st.currentOffset + sizeofInt
  if typeId = 0 then
    let clockOffset := ofDoubleBytes (← buf.read currentOffset 8)
    let c := Clock.globalClockOffset st.lastClock clockOffset
    some { currentOffset := currentOffset + sizeofDouble, lastClock := c, retClock := some c }
  else if typeId = 1 then
    let clockSlope := ofDoubleBytes (← buf.read currentOffset 8)
    let clockOffset := ofDoubleBytes (← buf.read (currentOffset + sizeofDouble) 8)
    let c := Clock.globalClockLM st.lastClock clockSlope clockOffset
    some { currentOffset := currentOffset + 2 * sizeofDouble, lastClock := c, retClock := some c }
  else
    some { st with currentOffset := currentOffset }

/-- The decoding loop. -/
def decodeLevels (buf : Buffer) : ℕ → DecodeState → Option DecodeState
  | 0, st => some st
  | n + 1, st => (decodeLevel buf st).bind (decodeLevels buf n)

/-- The clock the other ranks build from the buffer; the inner `none` is NULL. -/
def decode (buf : Buffer) : Option (Option (Clock Double)) := do
  let nbTypes := (ofIntBytes (← buf.read 0 4)).toInt
  let st ← decodeLevels buf nbTypes.toNat
    { currentOffset := sizeofInt, lastClock := .base, retClock := none }
  some st.retClock

namespace Clock

/-- The bytes all levels of a chain take. -/
def totalSize : Clock Double → ℤ
  | base => 0
  | globalClockOffset inner offset =>
    (globalClockOffset inner offset).getFlattenedThisClockSizeInBytes + inner.totalSize
  | globalClockLM inner slope intercept =>
    (globalClockLM inner slope intercept).getFlattenedThisClockSizeInBytes + inner.totalSize

/-- What propagating a chain is meant to achieve. -/
structure ExactPropagation (c : Clock Double) : Prop where
  /-- The buffer has room for the leading int and every level. -/
  room : sizeofInt + c.totalSize ≤ c.bytesNeeded
  /-- Everything is stored behind the leading int and before the end. -/
  in_bounds : ∀ w ∈ c.flattenClock c.bytesNeeded,
    sizeofInt ≤ w.1 ∧ w.1 + w.2.length ≤ c.bytesNeeded
  /-- No two stores overlap. -/
  own_place : (c.flattenClock c.bytesNeeded).Pairwise Apart
  /-- The other ranks rebuild the same chain. -/
  decoded : ∀ garbage, ∃ buf, c.encode garbage = some buf ∧ decode buf = some (some c)
  /-- The rebuilt chain converts every time stamp as rank 0's does. -/
  converts : ∀ garbage buf c', c.encode garbage = some buf → decode buf = some (some c') →
    ∀ (ops : TimeOps Double) (t : Double),
      c'.convertToGlobalTime ops t = c.convertToGlobalTime ops t

/-- One level, or two levels of which the outer one is a linear model. -/
def Shallow (c : Clock Double) : Prop :=
  c.depth = 1 ∨ c.depth = 2 ∧ ∃ inner slope intercept, c = globalClockLM inner slope intercept

/-- Every level above another global clock is a linear model. -/
def LMAbove : Clock Double → Prop
  | base => True
  | globalClockOffset inner _ => inner = base
  | globalClockLM inner _ _ => inner.LMAbove

/-- The fields of the outermost clock of `c` are in the buffer from `addr` on. -/
def LevelAt : Clock Double → Buffer → ℤ → Prop
  | base, _, _ => True
  | globalClockOffset _ offset, buf, addr =>
    buf.Holds (addr, intBytes 0) ∧ buf.Holds (addr + sizeofInt, doubleBytes offset)
  | globalClockLM _ slope intercept, buf, addr =>
    buf.Holds (addr, intBytes 1) ∧ buf.Holds (addr + sizeofInt, doubleBytes slope) ∧
      buf.Holds (addr + sizeofInt + sizeofDouble, doubleBytes intercept)

/-- The levels of `c` follow each other from `addr` on, the innermost first. -/
def LaidOut : Clock Double → Buffer → ℤ → Prop
  | base, _, _ => True
  | globalClockOffset inner offset, buf, addr =>
    inner.LaidOut buf addr ∧
      (globalClockOffset inner offset).LevelAt buf (addr + inner.totalSize)
  | globalClockLM inner slope intercept, buf, addr =>
    inner.LaidOut buf addr ∧
      (globalClockLM inner slope intercept).LevelAt buf (addr + inner.totalSize)

/-! ## The encoder -/

theorem getFlattenedThisClockSizeInBytes_pos {c : Clock Double} (h : c ≠ base) :
    0 < c.getFlattenedThisClockSizeInBytes := by
  cases c with
  | base => exact absurd rfl h
  | globalClockOffset inner offset =>
    simp [getFlattenedThisClockSizeInBytes, sizeofInt, sizeofDouble]
  | globalClockLM inner slope intercept =>
    simp [getFlattenedThisClockSizeInBytes, sizeofInt, sizeofDouble]

/-- The total size is that of the outermost clock and the total size of the rest. -/
theorem totalSize_eq {c : Clock Double} (h : c ≠ base) :
    c.totalSize = c.getFlattenedThisClockSizeInBytes + c.localClock.totalSize := by
  cases c with
  | base => exact absurd rfl h
  | globalClockOffset inner offset => rfl
  | globalClockLM inner slope intercept => rfl

theorem totalSize_pos {c : Clock Double} (h : c ≠ base) : 0 < c.totalSize := by
  induction c with
  | base => exact absurd rfl h
  | globalClockOffset inner offset ih =>
    rw [totalSize_eq h]
    have := getFlattenedThisClockSizeInBytes_pos h
    by_cases hb : inner = base
    · subst hb; simpa [localClock, totalSize] using this
    · have := ih hb
      simp only [localClock]
      omega
  | globalClockLM inner slope intercept ih =>
    rw [totalSize_eq h]
    have := getFlattenedThisClockSizeInBytes_pos h
    by_cases hb : inner = base
    · subst hb; simpa [localClock, totalSize] using this
    · have := ih hb
      simp only [localClock]
      omega

theorem depth_eq {c : Clock Double} (h : c ≠ base) : c.depth = c.localClock.depth + 1 := by
  cases c with
  | base => exact absurd rfl h
  | globalClockOffset inner offset => rfl
  | globalClockLM inner slope intercept => rfl

/-- The buffer is too small as soon as a third level is there. -/
theorem depth_le_two_of_room {c : Clock Double} (hc : c ≠ base)
    (h : sizeofInt + c.totalSize ≤ c.bytesNeeded) : c.depth ≤ 2 := by
  rw [depth_eq hc]
  by_cases hi : c.localClock = base
  · simp [hi, depth]
  · -- the size of the third level and of what is below it must vanish
    have hb : c.localClock.isBaseClock = false := by
      rw [← Bool.not_eq_true, isBaseClock_iff]; exact hi
    rw [bytesNeeded, getFlattenedClockSizeInBytes, hb, totalSize_eq hc, totalSize_eq hi] at h
    simp only [Bool.false_eq_true, if_false] at h
    have hinner : c.localClock.localClock = base := by
      by_contra hne
      have := totalSize_pos hne
      omega
    rw [depth_eq hi, hinner]
    simp [depth]

/-- The offset clock starts at the very front of the buffer, so nothing fits before it. -/
theorem localClock_eq_base_of_in_bounds {inner : Clock Double} {offset : Double}
    (h : ∀ w ∈ (globalClockOffset inner offset).flattenClock
      (globalClockOffset inner offset).bytesNeeded, sizeofInt ≤ w.1) : inner = base := by
  by_contra hne
  have hb : inner.isBaseClock = false := by
    rw [← Bool.not_eq_true, isBaseClock_iff]; exact hne
  have hstart : (globalClockOffset inner offset).bytesNeeded -
      (globalClockOffset inner offset).getFlattenedClockSizeInBytes = sizeofInt := by
    rw [bytesNeeded]; ring
  simp only [flattenClock, hstart, hb, Bool.false_eq_true, if_false, List.mem_cons] at h
  have hpos := getFlattenedThisClockSizeInBytes_pos hne
  have hsize : 0 < inner.getFlattenedClockSizeInBytes := by
    rw [getFlattenedClockSizeInBytes]
    split
    · omega
    · next hl =>
      have := getFlattenedThisClockSizeInBytes_pos
        (fun heq => hl (isBaseClock_iff.mpr heq) : inner.localClock ≠ base)
      omega
  cases inner with
  | base => exact hne rfl
  | globalClockOffset inner' offset' =>
    have hw := h _ (Or.inr (Or.inr List.mem_cons_self))
    simp only at hw
    omega
  | globalClockLM inner' slope' intercept' =>
    have hw := h _ (Or.inr (Or.inr List.mem_cons_self))
    simp only at hw
    omega

theorem flattenClock_offset_base (offset : Double) (e : ℤ) :
    (globalClockOffset base offset).flattenClock e =
      [(e - (sizeofInt + sizeofDouble), intBytes 0),
        (e - (sizeofInt + sizeofDouble) + sizeofInt, doubleBytes offset)] := rfl

theorem flattenClock_lm (inner : Clock Double) (slope intercept : Double) (e : ℤ) :
    (globalClockLM inner slope intercept).flattenClock e =
      (e - (1 * sizeofInt + 2 * sizeofDouble), intBytes 1) ::
        (e - (1 * sizeofInt + 2 * sizeofDouble) + sizeofInt, doubleBytes slope) ::
        (e - (1 * sizeofInt + 2 * sizeofDouble) + sizeofInt + sizeofDouble,
          doubleBytes intercept) ::
        inner.flattenClock (e - (1 * sizeofInt + 2 * sizeofDouble)) := by
  cases inner <;> rfl

/-- Below linear models the stores fill the `totalSize` bytes before the end pointer. -/
theorem LMAbove.flattenClock_bounds {c : Clock Double} (h : c.LMAbove) (e : ℤ) :
    ∀ w ∈ c.flattenClock e, e - c.totalSize ≤ w.1 ∧ w.1 + w.2.length ≤ e := by
  induction c generalizing e with
  | base => simp [flattenClock]
  | globalClockOffset inner offset ih =>
    obtain rfl : inner = base := h
    rw [flattenClock_offset_base]
    simp [totalSize, getFlattenedThisClockSizeInBytes, sizeofInt, sizeofDouble]
    omega
  | globalClockLM inner slope intercept ih =>
    have hin := ih h (e - (1 * sizeofInt + 2 * sizeofDouble))
    have hpos : 0 ≤ inner.totalSize := by
      by_cases hb : inner = base
      · rw [hb]; rfl
      · exact (totalSize_pos hb).le
    rw [flattenClock_lm]
    simp only [totalSize, getFlattenedThisClockSizeInBytes, sizeofInt, sizeofDouble] at hin ⊢
    intro w hw
    simp only [List.mem_cons] at hw
    rcases hw with rfl | rfl | rfl | hw
    · simp only [intBytes_length]; omega
    · simp only [doubleBytes_length]; omega
    · simp only [doubleBytes_length]; omega
    · have := hin w hw
      omega

/-- Below linear models each level is stored at its own place. -/
theorem LMAbove.flattenClock_apart {c : Clock Double} (h : c.LMAbove) (e : ℤ) :
    (c.flattenClock e).Pairwise Apart := by
  induction c generalizing e with
  | base => simp [flattenClock]
  | globalClockOffset inner offset ih =>
    obtain rfl : inner = base := h
    rw [flattenClock_offset_base]
    simp [Apart, sizeofInt]
  | globalClockLM inner slope intercept ih =>
    have hbelow := LMAbove.flattenClock_bounds (c := inner) h
      (e - (1 * sizeofInt + 2 * sizeofDouble))
    rw [flattenClock_lm]
    simp only [sizeofInt, sizeofDouble] at hbelow ih ⊢
    refine .cons (fun w hw => ?_) (.cons (fun w hw => ?_) (.cons (fun w hw => ?_) (ih h _)))
    · simp only [List.mem_cons] at hw
      rcases hw with rfl | rfl | hw
      · simp only [Apart, intBytes_length]; omega
      · simp only [Apart, intBytes_length]; omega
      · have := hbelow w hw
        simp only [Apart, intBytes_length]; omega
    · simp only [List.mem_cons] at hw
      rcases hw with rfl | hw
      · simp only [Apart, doubleBytes_length]; omega
      · have := hbelow w hw
        simp only [Apart, doubleBytes_length]; omega
    · have := hbelow w hw
      simp only [Apart, doubleBytes_length]; omega

/-- A buffer that holds the stores of such a chain has its levels laid out. -/
theorem LMAbove.laidOut {c : Clock Double} (h : c.LMAbove) {buf : Buffer} (e : ℤ)
    (hall : ∀ w ∈ c.flattenClock e, buf.Holds w) : c.LaidOut buf (e - c.totalSize) := by
  induction c generalizing e with
  | base => trivial
  | globalClockOffset inner offset ih =>
    obtain rfl : inner = base := h
    rw [flattenClock_offset_base] at hall
    have haddr : e - (globalClockOffset base offset).totalSize + base.totalSize =
        e - (sizeofInt + sizeofDouble) := by
      simp only [totalSize, getFlattenedThisClockSizeInBytes]; ring
    refine ⟨trivial, ?_⟩
    rw [haddr]
    exact ⟨hall _ List.mem_cons_self, hall _ (List.mem_cons_of_mem _ List.mem_cons_self)⟩
  | globalClockLM inner slope intercept ih =>
    rw [flattenClock_lm] at hall
    have haddr : e - (globalClockLM inner slope intercept).totalSize =
        e - (1 * sizeofInt + 2 * sizeofDouble) - inner.totalSize := by
      simp only [totalSize, getFlattenedThisClockSizeInBytes]; ring
    simp only [List.forall_mem_cons] at hall
    obtain ⟨htype, hslope, hintercept, hbelow⟩ := hall
    refine ⟨?_, ?_⟩
    · rw [haddr]
      exact ih h _ hbelow
    · rw [haddr, sub_add_cancel]
      exact ⟨htype, hslope, hintercept⟩

/-- For at most two levels the computed size is the size of all levels. -/
theorem bytesNeeded_eq {c : Clock Double} (hc : c ≠ base) (h : c.depth ≤ 2) :
    c.bytesNeeded = sizeofInt + c.totalSize := by
  rw [depth_eq hc] at h
  rw [bytesNeeded, getFlattenedClockSizeInBytes, totalSize_eq hc]
  split
  · next hb =>
    rw [isBaseClock_iff.mp hb, totalSize]
    ring
  · next hb =>
    have hi : c.localClock ≠ base := fun heq => hb (isBaseClock_iff.mpr heq)
    rw [depth_eq hi] at h
    have hii : c.localClock.localClock = base := depth_eq_zero_iff.mp (by omega)
    rw [totalSize_eq hi, hii, totalSize]
    ring

/-- Stores that stay behind the leading int and apart from each other leave a buffer with
the nested level in front and every field at its place. -/
theorem encode_holds {c : Clock Double}
    (hin : ∀ w ∈ c.flattenClock c.bytesNeeded,
      sizeofInt ≤ w.1 ∧ w.1 + w.2.length ≤ c.bytesNeeded)
    (hown : (c.flattenClock c.bytesNeeded).Pairwise Apart) (hsize : sizeofInt ≤ c.bytesNeeded)
    (garbage : ℤ → Byte) :
    ∃ buf, c.encode garbage = some buf ∧
      buf.Holds (0, intBytes (BitVec.ofInt 32 c.getNestedLevel)) ∧
      ∀ w ∈ c.flattenClock c.bytesNeeded, buf.Holds w := by
  let fresh : Buffer := { size := c.bytesNeeded.toNat, byteAt := garbage }
  simp only [sizeofInt] at hin hsize
  have hfresh : ∀ w ∈ c.flattenClock c.bytesNeeded, fresh.InBounds w.1 w.2.length := by
    intro w hw
    have := hin w hw
    simp only [Buffer.InBounds, fresh]
    omega
  obtain ⟨buf, hbuf, hbufSize, hall, -⟩ := Buffer.writeAll_holds hfresh hown
  have hlead : buf.InBounds (0, intBytes (BitVec.ofInt 32 c.getNestedLevel)).1
      (0, intBytes (BitVec.ofInt 32 c.getNestedLevel)).2.length := by
    simp only [Buffer.InBounds, hbufSize, fresh, intBytes_length]
    omega
  refine ⟨_, ?_, Buffer.holds_store_self hlead, fun w hw => (hall w hw).store (Or.inr ?_)⟩
  · simp only [encode, bind, Option.bind]
    rw [show Buffer.writeAll _ _ = some buf from hbuf]
    exact Buffer.write_of_inBounds hlead
  · have := hin w hw
    simp only [intBytes_length]
    omega

end Clock

/-! ## The decoder -/

namespace Clock

/-- One pass of the decoder reads the level at the current offset and puts it over the
last clock. -/
theorem decodeLevel_offset {buf : Buffer} {st : DecodeState} {inner : Clock Double}
    {offset : Double} (h : (globalClockOffset inner offset).LevelAt buf st.currentOffset) :
    decodeLevel buf st = some
      { currentOffset := st.currentOffset + sizeofInt + sizeofDouble
        lastClock := globalClockOffset st.lastClock offset
        retClock := some (globalClockOffset st.lastClock offset) } := by
  obtain ⟨htype, hoffset⟩ := h
  simp only [Buffer.Holds, intBytes_length, doubleBytes_length] at htype hoffset
  simp [decodeLevel, htype, hoffset]

theorem decodeLevel_lm {buf : Buffer} {st : DecodeState} {inner : Clock Double}
    {slope intercept : Double}
    (h : (globalClockLM inner slope intercept).LevelAt buf st.currentOffset) :
    decodeLevel buf st = some
      { currentOffset := st.currentOffset + sizeofInt + 2 * sizeofDouble
        lastClock := globalClockLM st.lastClock slope intercept
        retClock := some (globalClockLM st.lastClock slope intercept) } := by
  obtain ⟨htype, hslope, hintercept⟩ := h
  simp only [Buffer.Holds, intBytes_length, doubleBytes_length] at htype hslope hintercept
  simp [decodeLevel, htype, hslope, hintercept]

end Clock

theorem decodeLevels_succ (buf : Buffer) (n : ℕ) (st : DecodeState) :
    decodeLevels buf (n + 1) st = (decodeLevels buf n st).bind (decodeLevel buf) := by
  induction n generalizing st with
  | zero => simp [decodeLevels]
  | succ n ih =>
    rw [decodeLevels, decodeLevels]
    cases decodeLevel buf st with
    | none => rfl
    | some st' => exact ih st'

/-- The decoder rebuilds every chain that is laid out in the buffer, of any depth. -/
theorem Clock.LaidOut.decodeLevels {c : Clock Double} {buf : Buffer} {addr : ℤ}
    (h : c.LaidOut buf addr) :
    decodeLevels buf c.depth { currentOffset := addr, lastClock := .base, retClock := none } =
      some
        { currentOffset := addr + c.totalSize
          lastClock := c
          retClock := if c.isBaseClock then none else some c } := by
  induction c with
  | base => simp [ReproMPI.Clocks.decodeLevels, Clock.depth, Clock.totalSize, Clock.isBaseClock]
  | globalClockOffset inner offset ih =>
    rw [Clock.depth, decodeLevels_succ, ih h.1, Option.bind_some, Clock.decodeLevel_offset h.2]
    simp only [Clock.totalSize, Clock.getFlattenedThisClockSizeInBytes, Clock.isBaseClock,
      Bool.false_eq_true, if_false, Option.some.injEq, DecodeState.mk.injEq, and_true]
    ring
  | globalClockLM inner slope intercept ih =>
    rw [Clock.depth, decodeLevels_succ, ih h.1, Option.bind_some, Clock.decodeLevel_lm h.2]
    simp only [Clock.totalSize, Clock.getFlattenedThisClockSizeInBytes, Clock.isBaseClock,
      Bool.false_eq_true, if_false, Option.some.injEq, DecodeState.mk.injEq, and_true]
    ring

/-- The decoder runs one pass for each nested level. -/
theorem decode_eq {buf : Buffer} {level : BitVec 32} (h : buf.Holds (0, intBytes level)) :
    decode buf = (decodeLevels buf level.toInt.toNat
      { currentOffset := sizeofInt, lastClock := .base, retClock := none }).map
        DecodeState.retClock := by
  simp only [Buffer.Holds, intBytes_length] at h
  simp only [decode, h, bind, Option.bind_some, ofIntBytes_intBytes]
  cases decodeLevels buf level.toInt.toNat
    { currentOffset := sizeofInt, lastClock := .base, retClock := none } <;> rfl

namespace Clock

theorem Shallow.ne_base {c : Clock Double} (h : c.Shallow) : c ≠ base := by
  rintro rfl
  simp [Shallow, depth] at h

theorem Shallow.depth_le {c : Clock Double} (h : c.Shallow) : c.depth ≤ 2 := by
  rcases h with hone | ⟨htwo, -⟩ <;> omega

theorem lmAbove_of_depth_le_one {c : Clock Double} (h : c.depth ≤ 1) : c.LMAbove := by
  cases c with
  | base => trivial
  | globalClockOffset inner offset => exact depth_eq_zero_iff.mp (by simpa [depth] using h)
  | globalClockLM inner slope intercept =>
    obtain rfl : inner = base := depth_eq_zero_iff.mp (by simpa [depth] using h)
    trivial

theorem Shallow.lmAbove {c : Clock Double} (h : c.Shallow) : c.LMAbove := by
  rcases h with hone | ⟨htwo, inner, slope, intercept, rfl⟩
  · exact lmAbove_of_depth_le_one hone.le
  · exact lmAbove_of_depth_le_one (c := inner) (by simpa [depth] using htwo.le)

theorem encode_size {c : Clock Double} {garbage : ℤ → Byte} {buf : Buffer}
    (h : c.encode garbage = some buf) : buf.size = c.bytesNeeded.toNat := by
  obtain ⟨buf₁, hall, hwrite⟩ := Option.bind_eq_some_iff.mp h
  rw [Buffer.write_size hwrite, Buffer.writeAll_size hall]

/-- The other ranks allocate as many bytes as are sent. -/
theorem Shallow.encode_size {c : Clock Double} (h : c.Shallow) {garbage : ℤ → Byte}
    {buf : Buffer} (hbuf : c.encode garbage = some buf) : (buf.size : ℤ) = c.bytesNeeded := by
  have hneeded := bytesNeeded_eq h.ne_base h.depth_le
  have hpos := totalSize_pos h.ne_base
  rw [Clock.encode_size hbuf, Int.toNat_of_nonneg]
  rw [hneeded, sizeofInt]
  omega

/-- The buffer of a shallow chain decodes to the chain. -/
theorem Shallow.decode {c : Clock Double} (h : c.Shallow) {buf : Buffer}
    (hlead : buf.Holds (0, intBytes (BitVec.ofInt 32 c.getNestedLevel)))
    (hall : ∀ w ∈ c.flattenClock c.bytesNeeded, buf.Holds w) :
    decode buf = some (some c) := by
  have hlaid := h.lmAbove.laidOut c.bytesNeeded hall
  rw [bytesNeeded_eq h.ne_base h.depth_le, add_sub_cancel_right] at hlaid
  have hlevel : (BitVec.ofInt 32 c.getNestedLevel).toInt.toNat = c.depth := by
    have hd := h.depth_le
    rw [getNestedLevel_eq]
    interval_cases c.depth <;> rfl
  have hb : c.isBaseClock = false := by
    rw [← Bool.not_eq_true, isBaseClock_iff]
    exact h.ne_base
  rw [decode_eq hlead, hlevel, hlaid.decodeLevels, hb]
  rfl

theorem Shallow.exactPropagation {c : Clock Double} (h : c.Shallow) : c.ExactPropagation := by
  have hneeded := bytesNeeded_eq h.ne_base h.depth_le
  have hpos := totalSize_pos h.ne_base
  have hbounds : ∀ w ∈ c.flattenClock c.bytesNeeded,
      sizeofInt ≤ w.1 ∧ w.1 + w.2.length ≤ c.bytesNeeded := by
    intro w hw
    have := h.lmAbove.flattenClock_bounds c.bytesNeeded w hw
    exact ⟨by omega, this.2⟩
  have hown := h.lmAbove.flattenClock_apart c.bytesNeeded
  have hencode := encode_holds hbounds hown (by omega)
  exact {
    room := hneeded.ge
    in_bounds := hbounds
    own_place := hown
    decoded := by
      intro garbage
      obtain ⟨buf, hbuf, hlead, hall⟩ := hencode garbage
      exact ⟨buf, hbuf, h.decode hlead hall⟩
    converts := by
      intro garbage buf c' hbuf hc' ops t
      obtain ⟨buf', hbuf', hlead, hall⟩ := hencode garbage
      obtain rfl : buf' = buf := Option.some.inj (hbuf'.symm.trans hbuf)
      have heq : some (some c') = some (some c) := hc'.symm.trans (h.decode hlead hall)
      rw [Option.some.inj (Option.some.inj heq)] }

/-- A chain of global clocks is propagated exactly if and only if it has one level, or two
levels of which the outer one is a linear model. -/
theorem exactPropagation_iff {c : Clock Double} (hc : 1 ≤ c.depth) :
    c.ExactPropagation ↔ c.Shallow := by
  refine ⟨fun h => ?_, Shallow.exactPropagation⟩
  have hne : c ≠ base := by rintro rfl; simp [depth] at hc
  have htwo := depth_le_two_of_room hne h.room
  cases c with
  | base => exact absurd rfl hne
  | globalClockOffset inner offset =>
    obtain rfl : inner = base := localClock_eq_base_of_in_bounds fun w hw => (h.in_bounds w hw).1
    exact Or.inl rfl
  | globalClockLM inner slope intercept =>
    by_cases hone : (globalClockLM inner slope intercept).depth = 1
    · exact Or.inl hone
    · exact Or.inr ⟨by omega, inner, slope, intercept, rfl⟩

theorem exactPropagation_iff_lm_offset :
    (globalClockLM (globalClockOffset base 7) 1 2).ExactPropagation ↔
      (globalClockLM (globalClockOffset base 7) 1 2).Shallow :=
  exactPropagation_iff (show 1 ≤ (globalClockLM (globalClockOffset base 7) 1 2).depth by decide)

/-- Three linear models do not fit into the buffer. -/
theorem threeLevels_not_exactPropagation :
    ¬∀ c : Clock Double, 1 ≤ c.depth → c.ExactPropagation := by
  intro h
  have hroom := (h (globalClockLM (globalClockLM (globalClockLM base 1 2) 3 4) 5 6)
    (by decide)).room
  exact absurd hroom (by decide)

end Clock

end ReproMPI.Clocks
