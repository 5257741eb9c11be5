import RoscoEmulator.SdCard.Addressing
import RoscoEmulator.Util.Crc16

/-!
# Data packets

`CMD9`, `CMD10`, `CMD17` and each block of `CMD18` answer with the token `0xfe`, a payload, and, but
for `CMD9`, two bytes from `crc16_creator::simple`, the high end first. These are the check bytes of
the payload as it stands in `m_data`, whatever that holds. The check of an SD data block is
`Util.IsCrcXmodem`, whose register starts at zero; `simple` starts it at `0xffff`. So no packet that
the card sends passes the check.
-/

namespace RoscoEmulator.SdCard

open List

variable {M : Type}

/-- A check of 16 bits as it is sent. -/
def crcBytes (crc : BitVec 16) : List Byte := [(crc >>> 8).setWidth 8, crc.setWidth 8]

/-- The high byte and the low byte determine the check. -/
theorem crcBytes_inj {crc crc' : BitVec 16} (h : crcBytes crc = crcBytes crc') : crc = crc' := by
  obtain ⟨hhigh, hlow⟩ := List.cons_eq_cons.mp h
  have hlow := (List.cons_eq_cons.mp hlow).1
  refine BitVec.eq_of_getLsbD_eq fun i hi ↦ ?_
  by_cases hhalf : i < 8
  · have hbit := congrArg (fun byte : Byte ↦ byte.getLsbD i) hlow
    simpa [BitVec.getLsbD_setWidth, hhalf] using hbit
  · have hbit := congrArg (fun byte : Byte ↦ byte.getLsbD (i - 8)) hhigh
    have hlt : i - 8 < 8 := by omega
    have hback : 8 + (i - 8) = i := by omega
    simpa [BitVec.getLsbD_setWidth, BitVec.getLsbD_ushiftRight, hlt, hback] using hbit

/-- The bytes are a payload with the check of an SD data block behind it. -/
def Checked (payload bytes : List Byte) : Prop :=
  ∃ crc, Util.IsCrcXmodem payload crc ∧ bytes = payload ++ crcBytes crc

/-- The only check bytes that fit a payload are those of the register started at zero. -/
theorem checked_iff (payload bytes : List Byte) :
    Checked payload bytes ↔ bytes = payload ++ crcBytes (payload.foldl Util.crc16Append 0) := by
  constructor
  · rintro ⟨crc, hcrc, rfl⟩
    rw [(Util.isCrcXmodem_iff payload crc).mp hcrc]
  · intro h
    exact ⟨_, (Util.isCrcXmodem_iff payload _).mpr rfl, h⟩

theorem not_checked_crc16 (payload : List Byte) :
    ¬ Checked payload (payload ++ crcBytes (Util.crc16 payload)) := by
  rintro ⟨crc, hcrc, hbytes⟩
  rw [← crcBytes_inj (append_cancel_left hbytes)] at hcrc
  exact Util.not_isCrcXmodem_crc16 payload hcrc

namespace Core

/-! ## Parts of the data buffer -/

section Slices

variable (k : Core M)

@[simp] theorem length_slice (start len : ℕ) : (k.slice start len).length = len := by
  rw [slice, length_map, length_range]

theorem getElem?_slice {start len i : ℕ} (hi : i < len) :
    (k.slice start len)[i]? = some (k.data (start + i)) := by
  rw [slice, List.getElem?_map, List.getElem?_range hi]
  rfl

theorem slice_add (start a b : ℕ) :
    k.slice start (a + b) = k.slice start a ++ k.slice (start + a) b := by
  rw [slice, range_add, map_append, map_map]
  refine congrArg (k.slice start a ++ ·) (map_congr_left fun i _ ↦ ?_)
  exact congrArg k.data (Nat.add_assoc start a i).symm

theorem slice_congr {k k' : Core M} {start len : ℕ}
    (h : ∀ i < len, k.data (start + i) = k'.data (start + i)) :
    k.slice start len = k'.slice start len :=
  map_congr_left fun i hi ↦ h i (List.mem_range.mp hi)

theorem slice_setData (start : ℕ) (bytes : List Byte) :
    (k.setData start bytes).slice start bytes.length = bytes := by
  refine ext_getElem (length_slice _ _ _) fun i hi hi' ↦ ?_
  have hget := @getElem?_slice _ (k.setData start bytes) start _ i hi'
  rw [List.getElem?_eq_getElem hi, Option.some.injEq] at hget
  rw [hget]
  exact data_setData_of_mem k hi'

/-- What stands in front of the CRC stays as it is. -/
theorem slice_setCrc16 {start len s n : ℕ} (h : s + n ≤ start + len) :
    (k.setCrc16 start len).slice s n = k.slice s n :=
  slice_congr fun _ hi ↦ data_setCrc16_of_lt k (by omega)

/-- A part of `m_data` with its CRC behind it. -/
theorem slice_setCrc16_add_two (start len : ℕ) : (k.setCrc16 start len).slice start (len + 2) =
    k.slice start len ++ crcBytes (Util.crc16 (k.slice start len)) := by
  rw [slice_add, slice_setCrc16 k le_rfl]
  exact congrArg (k.slice start len ++ ·)
    (slice_setData (k.logged (.dataRead start len)) (start + len) (crcBytes _))

end Slices

/-- The bytes that the card is about to send. -/
def response (k : Core M) : List Byte := k.slice 0 k.outCount

theorem getElem?_response {k : Core M} {i : ℕ} (hi : i < k.outCount) :
    k.response[i]? = some (k.data i) := by
  rw [response, getElem?_slice k hi, Nat.zero_add]

/-- The response of most commands. -/
theorem response_respond (k : Core M) (bytes : List Byte) (state : SdState) :
    (k.respond bytes state).response = bytes := slice_setData k 0 bytes

theorem response_drop {k : Core M} {n len : ℕ} (h : k.outCount = n + len) :
    k.response.drop n = k.slice n len := by
  rw [response, h, slice_add, Nat.zero_add]
  exact drop_left' (length_slice _ _ _)

end Core

/-! ## The commands -/

namespace DataCommand

open SdCard.Core

variable [HardDisk M]

/-- The card after the command. -/
def after (k : Core M) : DataCommand → Core M
  | sendCsd => k.sendCsd
  | sendCid => k.sendCid
  | readSingleBlock => k.readSingleBlock
  | readNextBlock => k.readNextBlock

/-- Where the payload stands in `m_data`, behind the token. -/
def start : DataCommand → ℕ
  | sendCsd | sendCid | readSingleBlock => 3
  | readNextBlock => 1

/-- The length of the payload. -/
def length (k : Core M) : DataCommand → ℕ
  | sendCsd => k.csd.length
  | sendCid => cid.length
  | readSingleBlock => k.xferblk
  | readNextBlock => k.blksize

/-- The payload of the response. -/
def payload (k : Core M) (c : DataCommand) : List Byte := (c.after k).slice c.start (c.length k)

/-- The command is answered with a data block: the reads of the image need one, and `CMD17` rejects
an address from which the transfer crosses the end of a block. -/
def SendsBlock (k : Core M) : DataCommand → Prop
  | sendCsd | sendCid => True
  | readSingleBlock => k.mounted = true ∧ ¬ (k.type = .v2 ∧ k.crossesBlock k.argument)
  | readNextBlock => k.mounted = true

/-- The response has the token in front of the payload. -/
def HasToken (k : Core M) (c : DataCommand) : Prop :=
  (c.after k).response[c.start - 1]? = some dataToken

/-- The bytes behind the token are the payload with the check of an SD data block behind it. -/
def CarriesCrc (k : Core M) (c : DataCommand) : Prop :=
  Checked (c.payload k) ((c.after k).response.drop c.start)

variable {k : Core M}

/-- `CMD9` sends the register with no check behind it. -/
theorem response_sendCsd : (sendCsd.after k).response = [0x00, 0xff, 0xfe] ++ k.csd :=
  response_respond k _ _

theorem payload_sendCsd : sendCsd.payload k = k.csd := by
  have hcount : (sendCsd.after k).outCount = 3 + k.csd.length := by
    refine (respond_outCount k ([0x00, 0xff, 0xfe] ++ k.csd) .stby).trans ?_
    exact length_append
  rw [payload, length, start, ← response_drop hcount, response_sendCsd]
  rfl

omit [HardDisk M] in
/-- A packet with a check: what the three other commands have in common. -/
theorem response_of_setCrc16 {k' : Core M} {start len delay : ℕ} {state : SdState} :
    ((k'.setCrc16 start len).sendData (start + len + 2) state delay).response.drop start =
      k'.slice start len ++ crcBytes (Util.crc16 (k'.slice start len)) :=
  (response_drop (Nat.add_assoc _ _ _)).trans (slice_setCrc16_add_two k' start len)

variable {c : DataCommand}

/-- The three others end alike: the CRC goes behind the payload, and the response starts. -/
theorem after_eq (hcsd : c ≠ sendCsd) (h : c.SendsBlock k) :
    ∃ k' : Core M, ∃ state, k'.data (c.start - 1) = dataToken ∧ c.after k =
      (k'.setCrc16 c.start (c.length k)).sendData
      (c.start + c.length k + 2) state responseDelay := by
  cases c with
  | sendCsd => exact absurd rfl hcsd
  | sendCid =>
    exact ⟨_, _, @data_setData_of_mem _ k 0 2 ([0x00, 0xff, 0xfe] ++ cid) (by decide), rfl⟩
  | readSingleBlock =>
    obtain ⟨hmounted, hcross⟩ := h
    have htoken : ∀ j : Core M, j.data = (k.setData 0 [0x00, 0xff, dataToken]).data →
        ∀ bytes, (j.setData 3 bytes).data 2 = dataToken := by
      intro j hj bytes
      refine (data_setData_of_lt j bytes (by decide)).trans ?_
      rw [hj]
      exact @data_setData_of_mem _ k 0 2 [0x00, 0xff, dataToken] (by decide)
    have hread : readSingleBlock.after k = k.readSingleBlock := rfl
    rw [hread]
    simp only [Core.readSingleBlock, imageRead_snd]
    rw [if_pos hmounted]
    by_cases hfull : k.xferblk = k.blksize
    · refine ⟨_, _, htoken _ ?_ _, (if_neg hcross).trans (if_pos hfull)⟩
      rfl
    · refine ⟨_, _, htoken _ ?_ _, (if_neg hcross).trans (if_neg hfull)⟩
      rfl
  | readNextBlock =>
    have hread : readNextBlock.after k = k.readNextBlock := rfl
    rw [hread]
    simp only [Core.readNextBlock, imageRead_snd]
    refine ⟨_, _, ?_, rfl⟩
    refine (data_setData_of_lt ((k.setData 0 [dataToken]).logged (.imageUsed k.mounted))
      ((k.setData 0 [dataToken]).imageRead k.blknext).1 Nat.zero_lt_one).trans ?_
    exact @data_setData_of_mem _ k 0 0 [dataToken] (by decide)

/-- What the card does send: the payload, and behind it, but for `CMD9`, the bytes of `simple`. -/
theorem response_eq (hcsd : c ≠ sendCsd) (h : c.SendsBlock k) :
    (c.after k).response.drop c.start =
      c.payload k ++ crcBytes (Util.crc16 (c.payload k)) := by
  obtain ⟨k', state, -, hafter⟩ := after_eq hcsd h
  have hpayload : c.payload k = k'.slice c.start (c.length k) := by
    rw [payload, hafter]
    exact slice_setCrc16 k' le_rfl
  rw [hafter, response_of_setCrc16, hpayload]

theorem hasToken (h : c.SendsBlock k) : c.HasToken k := by
  by_cases hcsd : c = sendCsd
  · subst hcsd
    rw [HasToken, response_sendCsd]
    rfl
  · obtain ⟨k', state, htoken, hafter⟩ := after_eq hcsd h
    have hpos : 0 < c.start := by cases c <;> decide
    have hcount : (c.after k).outCount = c.start + c.length k + 2 := by
      rw [hafter]
      rfl
    rw [HasToken, getElem?_response (by omega), hafter]
    exact congrArg some ((data_setCrc16_of_lt k' (by omega)).trans htoken)

theorem packet_eq (hcsd : c ≠ sendCsd) (h : c.SendsBlock k) :
    (c.after k).response.drop (c.start - 1) =
      dataToken :: (c.payload k ++ crcBytes (Util.crc16 (c.payload k))) := by
  have hpos : 0 < c.start := by cases c <;> decide
  obtain ⟨hlt, htoken⟩ := List.getElem?_eq_some_iff.mp (hasToken h)
  rw [drop_eq_getElem_cons hlt, htoken, Nat.sub_add_cancel hpos, response_eq hcsd h]

/-- **No data packet carries the check of an SD data block.** -/
theorem not_carriesCrc (k : Core M) (c : DataCommand) (h : c.SendsBlock k) : ¬ c.CarriesCrc k := by
  by_cases hcsd : c = sendCsd
  · subst hcsd
    rintro ⟨crc, -, hbytes⟩
    rw [response_sendCsd, payload_sendCsd] at hbytes
    have hlen := congrArg List.length hbytes
    rw [length_append] at hlen
    exact absurd hlen (Nat.ne_of_lt (Nat.lt_add_of_pos_right (Nat.succ_pos 1)))
  · rw [CarriesCrc, response_eq hcsd h]
    exact not_checked_crc16 _

theorem not_carriesCrc_block :
    ¬ readSingleBlock.CarriesCrc (mountedWith [0x51, 0x00, 0x00, 0x02, 0x00, 0xff]) :=
  not_carriesCrc _ _ ⟨by decide, fun h ↦ absurd h.2 (by decide)⟩

/-- The check of the card identification is `0x2a63`, and the card sends `0x4069`. -/
theorem not_carriesCrc_sendCid :
    ¬ sendCid.CarriesCrc (Card.start .v2 true : Card MemoryDisk).core := by
  rw [CarriesCrc, checked_iff]
  decide

end DataCommand

end RoscoEmulator.SdCard
