import LiteSpeedStore.Theory.Crc
import LiteSpeedStore.Endian

/-!
# The checksum of the on-disk formats

`CRC32.hpp`: the table-driven CRC-32 that guards every log entry and the snapshot payload.
`CRC32.calculate_toBitVec` shows that it runs the reflected register of `Crc` with the polynomial
`0xEDB88320`, so `CRC32.calculate_burst` follows from `Crc.feed_burst`: a change confined to four
consecutive bytes always changes the checksum, and `CRC32.calculate_eq_ieee` from
`Crc.feed_eq_consume`: the checksum is the CRC-32 of IEEE 802.3.
-/

namespace LiteSpeedStore

namespace CRC32

/-- The bit-reversed CRC-32 polynomial. -/
def polynomial : UInt32 := 0xEDB88320

/-- One turn of the inner loop that fills the table. -/
def tableStep (c : UInt32) : UInt32 :=
  if c &&& 1 ≠ 0 then polynomial ^^^ (c >>> 1) else c >>> 1

/-- The lookup table: for every byte value, eight turns of the inner loop. -/
def table : Vector UInt32 256 :=
  Vector.ofFn fun i => (List.range 8).foldl (fun c _ => tableStep c) (UInt32.ofNat i.val)

theorem lowByte_lt (c : UInt32) : (c &&& 0xFF).toNat < 256 := by
  rw [UInt32.toNat_and]
  exact Nat.lt_of_le_of_lt Nat.and_le_right (by decide)

/-- One byte of the message. -/
def update (crc : UInt32) (b : UInt8) : UInt32 :=
  table.get ⟨((crc ^^^ b.toUInt32) &&& 0xFF).toNat, lowByte_lt _⟩ ^^^ (crc >>> 8)

/-- The CRC-32 of `data`. -/
def calculate (data : Bytes) : UInt32 := ~~~(data.foldl update 0xFFFFFFFF)

example : calculate [0x31, 0x32, 0x33, 0x34, 0x35, 0x36, 0x37, 0x38, 0x39] = 0xCBF43926 := by
  decide +kernel

theorem tableStep_toBitVec (c : UInt32) :
    (tableStep c).toBitVec = Crc.bitStep polynomial.toBitVec c.toBitVec := by
  have hlow : c &&& 1 ≠ 0 ↔ c.toBitVec.getLsbD 0 = true := by
    have hb : (c &&& 1).toBitVec = BitVec.setWidth 32 (BitVec.ofBool (c.toBitVec.getLsbD 0)) :=
      BitVec.and_one_eq_setWidth_ofBool_getLsbD
    rw [Ne, ← UInt32.toBitVec_inj, hb]
    cases c.toBitVec.getLsbD 0 <;> decide
  unfold tableStep Crc.bitStep
  by_cases h : c.toBitVec.getLsbD 0 = true
  · rw [if_pos (hlow.2 h), if_pos h, UInt32.toBitVec_xor, UInt32.toBitVec_shiftRight]
    rfl
  · rw [if_neg (mt hlow.1 h), if_neg h, UInt32.toBitVec_shiftRight]
    rfl

theorem table_get (i : Fin 256) :
    (table.get i).toBitVec = Crc.bitSteps polynomial.toBitVec 8 (BitVec.ofNat 32 i.val) := by
  have hn : ∀ n c, ((List.range n).foldl (fun c _ => tableStep c) c).toBitVec =
      Crc.bitSteps polynomial.toBitVec n c.toBitVec := by
    intro n
    induction n with
    | zero => intro c; rfl
    | succ n ih =>
      intro c
      rw [List.range_succ, List.foldl_append, List.foldl_cons, List.foldl_nil, tableStep_toBitVec,
        ih, Nat.add_comm, Crc.bitSteps_add]
      rfl
  have hget : table.get i = (List.range 8).foldl (fun c _ => tableStep c) (UInt32.ofNat i.val) := by
    rw [show table.get i = table[i.val] from rfl, table, Vector.getElem_ofFn]
  rw [hget, hn]
  rfl

theorem update_toBitVec (crc : UInt32) (b : UInt8) :
    (update crc b).toBitVec = Crc.byteStep polynomial.toBitVec crc.toBitVec b := by
  have hb : b.toUInt32.toBitVec = BitVec.ofNat 32 b.toNat := by
    apply BitVec.eq_of_toNat_eq
    have := b.toNat_lt
    rw [UInt32.toNat_toBitVec, UInt8.toNat_toUInt32, BitVec.toNat_ofNat, Nat.mod_eq_of_lt (by omega)]
  have hs : (crc >>> 8).toBitVec = crc.toBitVec >>> 8 := rfl
  rw [update, UInt32.toBitVec_xor, table_get, Crc.byteStep_table, ← hb, hs]
  congr 2
  apply BitVec.eq_of_toNat_eq
  rw [BitVec.toNat_ofNat, Nat.mod_eq_of_lt (UInt32.toNat_lt _)]
  rfl

/-- The table-driven loop runs the reflected register bit by bit. -/
theorem calculate_toBitVec (data : Bytes) :
    (calculate data).toBitVec =
      ~~~(Crc.feed polynomial.toBitVec (BitVec.allOnes 32) data) := by
  have h : ∀ c : UInt32, (data.foldl update c).toBitVec =
      Crc.feed polynomial.toBitVec c.toBitVec data := by
    induction data with
    | nil => intro c; rfl
    | cons b data ih => intro c; rw [List.foldl_cons, ih, update_toBitVec, Crc.feed_cons]
  rw [calculate, UInt32.toBitVec_not, h]
  rfl

/-- The CRC-32 of IEEE 802.3, reflected: the register starts with all ones, consumes the bits of
the message one at a time, the least significant bit of every byte first, and is complemented. -/
def ieee (message : List UInt8) : BitVec 32 :=
  ~~~((Crc.bits message).foldl (Crc.consume 0xEDB88320#32) (BitVec.allOnes 32))

/-- **The table-driven checksum is CRC-32**, for every message. -/
theorem calculate_eq_ieee (data : Bytes) : (calculate data).toBitVec = ieee data := by
  rw [calculate_toBitVec, Crc.feed_eq_consume (by decide)]
  rfl

/-- **A change inside four consecutive bytes changes the checksum**, whatever surrounds them. -/
theorem calculate_burst {pre as bs post : Bytes} (hlen : as.length = bs.length)
    (hw : as.length ≤ 4) (h : calculate (pre ++ as ++ post) = calculate (pre ++ bs ++ post)) :
    as = bs := by
  have hreg := congrArg UInt32.toBitVec h
  rw [calculate_toBitVec, calculate_toBitVec, BitVec.not_inj] at hreg
  exact Crc.feed_burst (by decide) hlen (by omega) hreg

end CRC32

end LiteSpeedStore
