import Mathlib
import VeloGraphX.Types
import VeloGraphX.Lib.ByteStream

/-!
# Partition files

A header of twenty-four bytes, whose fields lie in memory without gaps, followed by the payload.
A file is read through a mapping when the system grants one and through a stream otherwise.
-/

namespace VeloGraphX

open ByteStream

/-- `PartitionFileHeader`. -/
structure PartitionFileHeader where
  magic : ℕ := 0x56475850
  version : ℕ := 1
  flags : ℕ := 0
  partitionId : UInt64 := 0
  payloadBytes : ℕ := 0
deriving DecidableEq, Repr

/-- The memory of a header: widths 4, 2, 2, 8 and 8. -/
def PartitionFileHeader.memory (order : ByteOrder) (header : PartitionFileHeader) : List UInt8 :=
  stored order 4 header.magic ++ (stored order 2 header.version ++ (stored order 2 header.flags ++
    (stored order 8 header.partitionId.toNat ++ stored order 8 header.payloadBytes)))

/-- The header that lies in memory. -/
def PartitionFileHeader.ofMemory (order : ByteOrder) (memory : List UInt8) : PartitionFileHeader where
  magic := loaded order (memory.take 4)
  version := loaded order ((memory.drop 4).take 2)
  flags := loaded order ((memory.drop 6).take 2)
  partitionId := UInt64.ofNat (loaded order ((memory.drop 8).take 8))
  payloadBytes := loaded order ((memory.drop 16).take 8)

/-- `sizeof(PartitionFileHeader)`. -/
def kHeaderBytes : ℕ := 24

namespace PartitionFile

/-- `write`: the bytes of a file that could be opened and written. -/
def write (order : ByteOrder) (partitionId : UInt64) (payload : List UInt8) : List UInt8 :=
  PartitionFileHeader.memory order
    { partitionId := partitionId, payloadBytes := payload.length } ++ payload

/-- `validate_header`. -/
def validateHeader (header : PartitionFileHeader) (expectedPartitionId : UInt64) :
    Except Exception Unit :=
  if header.magic ≠ 0x56475850 then .error (.runtimeError "invalid partition magic")
  else if header.version ≠ 1 then .error (.runtimeError "unsupported partition version")
  else if header.partitionId ≠ expectedPartitionId then .error (.runtimeError "partition id mismatch")
  else .ok ()

/-- `std::vector<std::uint8_t>::max_size()`. -/
def kMaxVectorBytes : ℕ := 2 ^ 63 - 1

/-- A vector of `count` bytes is asked for. Memory for one that is not too long is taken to be
there. -/
def sizeVector (count : ℕ) : Except Exception Unit :=
  if count > kMaxVectorBytes then
    .error (.lengthError "cannot create std::vector larger than max_size()")
  else .ok ()

/-- `read`; there are no bytes when the file cannot be opened. A header that is cut off overwrites
the front of the default header. -/
def read (order : ByteOrder) (file : Option (List UInt8)) (expectedPartitionId : UInt64) :
    Except Exception (List UInt8) :=
  match file with
  | none => .error (.runtimeError "failed to open partition file for read")
  | some bytes =>
    let memory := bytes.take kHeaderBytes ++
      (PartitionFileHeader.memory order {}).drop (bytes.take kHeaderBytes).length
    let header := PartitionFileHeader.ofMemory order memory
    match validateHeader header expectedPartitionId with
    | .error exception => .error exception
    | .ok () =>
      -- the vector gets its size before anything is known of the payload
      match sizeVector header.payloadBytes with
      | .error exception => .error exception
      | .ok () =>
        let rest := bytes.drop kHeaderBytes
        -- the stream failed at the header, or fails when not all of the payload is there
        if bytes.length < kHeaderBytes ∨ rest.length < header.payloadBytes then
          .error (.runtimeError "truncated partition payload")
        else .ok (rest.take header.payloadBytes)

/-- The header at the start of a mapping. -/
def mappedHeader (order : ByteOrder) (bytes : List UInt8) : PartitionFileHeader :=
  PartitionFileHeader.ofMemory order (bytes.take kHeaderBytes)

/-- The checks of the mapped path of `read_mmap_or_fallback`, and where the payload lies that it
copies when it gets past them. -/
def mappedRange (order : ByteOrder) (bytes : List UInt8) (expectedPartitionId : UInt64) :
    Except Exception (ℕ × ℕ) :=
  let header := mappedHeader order bytes
  match validateHeader header expectedPartitionId with
  | .error exception => .error exception
  | .ok () =>
    let total := addU64 kHeaderBytes header.payloadBytes
    if total > bytes.length then .error (.runtimeError "truncated mmap partition payload")
    else .ok (kHeaderBytes, header.payloadBytes)

/-- The mapped path of `read_mmap_or_fallback`. -/
def readMapped (order : ByteOrder) (bytes : List UInt8) (expectedPartitionId : UInt64) :
    Except Exception (List UInt8) :=
  match mappedRange order bytes expectedPartitionId with
  | .error exception => .error exception
  | .ok (start, count) =>
    -- a declaration whose sum wraps gets here, and its range is longer than a vector can be
    match sizeVector count with
    | .error exception => .error exception
    | .ok () => .ok ((bytes.drop start).take count)

/-- `read_mmap_or_fallback`; `mapped` tells whether the system opens and maps the file. -/
def readMmapOrFallback (order : ByteOrder) (mapped : Bool) (file : Option (List UInt8))
    (expectedPartitionId : UInt64) : Except Exception (List UInt8) :=
  match file with
  | some bytes =>
    if mapped ∧ kHeaderBytes ≤ bytes.length then readMapped order bytes expectedPartitionId
    else read order file expectedPartitionId
  | none => read order file expectedPartitionId

variable {order : ByteOrder}

/-- A vector that is not too long gets its size. -/
theorem sizeVector_of_lt {count : ℕ} (hcount : count < 2 ^ 63) : sizeVector count = .ok () :=
  if_neg (by rw [kMaxVectorBytes]; omega)

/-- A header takes its size. -/
theorem length_memory (header : PartitionFileHeader) :
    (header.memory order).length = kHeaderBytes := by
  simp only [PartitionFileHeader.memory, List.length_append, length_stored, kHeaderBytes]

/-- A header whose fields fit their widths is read back from its memory. -/
theorem ofMemory_memory {header : PartitionFileHeader} (hmagic : header.magic < 256 ^ 4)
    (hversion : header.version < 256 ^ 2) (hflags : header.flags < 256 ^ 2)
    (hpayload : header.payloadBytes < 256 ^ 8) :
    PartitionFileHeader.ofMemory order (header.memory order) = header := by
  have hid : header.partitionId.toNat < 256 ^ 8 := header.partitionId.toNat_lt
  have htake : ∀ {w x : ℕ} (rest : List UInt8), (stored order w x ++ rest).take w = stored order w x :=
    fun rest => List.take_left' (length_stored order _ _)
  have hdrop : ∀ {w x : ℕ} (rest : List UInt8), (stored order w x ++ rest).drop w = rest :=
    fun rest => List.drop_left' (length_stored order _ _)
  have hdrop₆ : (header.memory order).drop 6 = ((header.memory order).drop 4).drop 2 :=
    by rw [List.drop_drop]
  have hdrop₈ : (header.memory order).drop 8 = ((header.memory order).drop 6).drop 2 :=
    by rw [List.drop_drop]
  have hdrop₁₆ : (header.memory order).drop 16 = ((header.memory order).drop 8).drop 8 :=
    by rw [List.drop_drop]
  have h₄ : (header.memory order).drop 4 = stored order 2 header.version ++
      (stored order 2 header.flags ++ (stored order 8 header.partitionId.toNat ++
        stored order 8 header.payloadBytes)) := hdrop _
  rw [h₄, hdrop] at hdrop₆
  rw [hdrop₆, hdrop] at hdrop₈
  rw [hdrop₈, hdrop] at hdrop₁₆
  have hlast : (stored order 8 header.payloadBytes).take 8 = stored order 8 header.payloadBytes :=
    List.take_of_length_le (length_stored order _ _).le
  have hfront : (header.memory order).take 4 = stored order 4 header.magic := htake _
  rw [PartitionFileHeader.ofMemory, hfront, h₄, hdrop₆, hdrop₈, hdrop₁₆, htake, htake, htake, hlast,
    loaded_stored order hmagic, loaded_stored order hversion, loaded_stored order hflags,
    loaded_stored order hid, loaded_stored order hpayload, UInt64.ofNat_toNat]

section Written

variable {partitionId : UInt64} {payload : List UInt8}

/-- The header that `write` puts in front of a payload. -/
def writtenHeader (partitionId : UInt64) (payload : List UInt8) : PartitionFileHeader :=
  { partitionId := partitionId, payloadBytes := payload.length }

/-- The header is read back. -/
theorem ofMemory_writtenHeader (hpayload : kHeaderBytes + payload.length < 2 ^ 64) :
    PartitionFileHeader.ofMemory order ((writtenHeader partitionId payload).memory order) =
      writtenHeader partitionId payload :=
  ofMemory_memory (by dsimp only [writtenHeader]; norm_num)
    (by dsimp only [writtenHeader]; norm_num) (by dsimp only [writtenHeader]; norm_num)
    (by dsimp only [writtenHeader]; omega)

/-- The header is valid for its id alone. -/
theorem validateHeader_writtenHeader (expected : UInt64) :
    validateHeader (writtenHeader partitionId payload) expected =
      if partitionId = expected then .ok ()
      else .error (.runtimeError "partition id mismatch") := by
  by_cases hid : partitionId = expected <;> simp [validateHeader, writtenHeader, hid]

/-- A written file starts with its header. -/
theorem take_write : (write order partitionId payload).take kHeaderBytes =
    (writtenHeader partitionId payload).memory order := List.take_left' (length_memory _)

/-- The payload is behind the header. -/
theorem drop_write : (write order partitionId payload).drop kHeaderBytes = payload :=
  List.drop_left' (length_memory _)

/-- The size of a written file. -/
theorem length_write :
    (write order partitionId payload).length = kHeaderBytes + payload.length := by
  rw [write, List.length_append, length_memory]

/-- Reading a file that starts with a whole written header. -/
theorem readMmapOrFallback_of_header (mapped : Bool) {bytes : List UInt8} {expected : UInt64}
    (hcapacity : payload.length < 2 ^ 63)
    (hbytes : bytes.take kHeaderBytes = (writtenHeader partitionId payload).memory order) :
    readMmapOrFallback order mapped (some bytes) expected =
      if partitionId ≠ expected then .error (.runtimeError "partition id mismatch")
      else if bytes.length < kHeaderBytes + payload.length then
        .error (.runtimeError (if mapped then "truncated mmap partition payload"
          else "truncated partition payload"))
      else .ok ((bytes.drop kHeaderBytes).take payload.length) := by
  have hwhole : kHeaderBytes ≤ bytes.length := by
    have hlength := congrArg List.length hbytes
    rw [length_memory, List.length_take] at hlength
    exact min_eq_left_iff.mp hlength
  have hpayload : kHeaderBytes + payload.length < 2 ^ 64 := by
    rw [kHeaderBytes]
    omega
  have hcount : (writtenHeader partitionId payload).payloadBytes = payload.length := rfl
  unfold readMmapOrFallback
  dsimp only
  cases mapped with
  | true =>
    rw [if_pos ⟨rfl, hwhole⟩, readMapped, mappedRange, mappedHeader, hbytes, ofMemory_writtenHeader hpayload]
    dsimp only
    rw [validateHeader_writtenHeader]
    by_cases hid : partitionId = expected
    · rw [if_pos hid, if_neg (not_not.mpr hid)]
      dsimp only
      rw [hcount, addU64, Nat.mod_eq_of_lt hpayload]
      by_cases hshort : kHeaderBytes + payload.length > bytes.length
      · rw [if_pos hshort, if_pos hshort]
        rfl
      · rw [if_neg hshort, if_neg hshort]
        dsimp only
        rw [sizeVector_of_lt hcapacity]
    · rw [if_neg hid, if_pos hid]
  | false =>
    rw [if_neg fun hmapped => Bool.false_ne_true hmapped.1]
    unfold read
    dsimp only
    rw [hbytes, length_memory, List.drop_of_length_le (length_memory _).le, List.append_nil,
      ofMemory_writtenHeader hpayload, validateHeader_writtenHeader]
    by_cases hid : partitionId = expected
    · rw [if_pos hid, if_neg (not_not.mpr hid)]
      dsimp only
      rw [hcount, sizeVector_of_lt hcapacity]
      dsimp only
      rw [List.length_drop]
      refine if_congr ?_ rfl rfl
      omega
    · rw [if_neg hid, if_pos hid]

/-- A written file is read back by either path. -/
theorem readMmapOrFallback_write (mapped : Bool) (partitionId : UInt64) {payload : List UInt8}
    (hcapacity : payload.length < 2 ^ 63) :
    readMmapOrFallback order mapped (some (write order partitionId payload)) partitionId =
      .ok payload := by
  rw [readMmapOrFallback_of_header mapped hcapacity take_write, if_neg (not_not.mpr rfl),
    length_write, if_neg (lt_irrefl _), drop_write, List.take_length]

/-- A file that is cut off is rejected by either path, for every id. -/
theorem readMmapOrFallback_truncated (mapped : Bool) {start : List UInt8} (expected : UInt64)
    (hcapacity : payload.length < 2 ^ 63)
    (hstart : start <+: write order partitionId payload)
    (hne : start ≠ write order partitionId payload) :
    ∃ exception, readMmapOrFallback order mapped (some start) expected = .error exception := by
  have hshort : start.length < kHeaderBytes + payload.length := by
    rw [← @length_write order partitionId payload]
    exact lt_of_le_of_ne hstart.length_le fun heq => hne (hstart.eq_of_length heq)
  by_cases hwhole : kHeaderBytes ≤ start.length
  · have htake : start.take kHeaderBytes = (writtenHeader partitionId payload).memory order := by
      obtain ⟨rest, hrest⟩ := hstart
      rw [← take_write, ← hrest, List.take_append_of_le_length hwhole]
    rw [readMmapOrFallback_of_header mapped hcapacity htake, if_pos hshort]
    split <;> exact ⟨_, rfl⟩
  · -- the stream stays failed after the header, whatever the mixed header says
    unfold readMmapOrFallback
    dsimp only
    rw [if_neg fun hmapped => hwhole hmapped.2]
    unfold read
    dsimp only
    split
    · exact ⟨_, rfl⟩
    · split
      · exact ⟨_, rfl⟩
      · rw [if_pos (Or.inl (not_le.mp hwhole))]
        exact ⟨_, rfl⟩

/-- `read` is the fallback path. -/
theorem readMmapOrFallback_false (file : Option (List UInt8)) (expected : UInt64) :
    readMmapOrFallback order false file expected = read order file expected := by
  unfold readMmapOrFallback
  cases file with
  | none => rfl
  | some bytes => exact if_neg (by simp)

/-- Both readers return the payload of a written file for its id, and reject the file for every
other id and every strict prefix of it. -/
theorem partition_file_exact (order : ByteOrder) (partitionId : UInt64) (payload : List UInt8)
    (hcapacity : payload.length < 2 ^ 63) :
    let file := write order partitionId payload
    (read order (some file) partitionId = .ok payload ∧
        ∀ mapped, readMmapOrFallback order mapped (some file) partitionId = .ok payload) ∧
      (∀ other, other ≠ partitionId →
        (∃ exception, read order (some file) other = .error exception) ∧
          ∀ mapped, ∃ exception,
            readMmapOrFallback order mapped (some file) other = .error exception) ∧
      ∀ start, start <+: file → start ≠ file → ∀ expected,
        (∃ exception, read order (some start) expected = .error exception) ∧
          ∀ mapped, ∃ exception,
            readMmapOrFallback order mapped (some start) expected = .error exception := by
  dsimp only
  have hother : ∀ other, other ≠ partitionId → ∀ mapped, ∃ exception, readMmapOrFallback order
      mapped (some (write order partitionId payload)) other = .error exception := by
    intro other hne mapped
    rw [readMmapOrFallback_of_header mapped hcapacity take_write, if_pos (Ne.symm hne)]
    exact ⟨_, rfl⟩
  refine ⟨⟨?_, fun mapped => readMmapOrFallback_write mapped partitionId hcapacity⟩,
    fun other hne => ⟨?_, hother other hne⟩, fun start hstart hne expected => ⟨?_, fun mapped =>
      readMmapOrFallback_truncated mapped expected hcapacity hstart hne⟩⟩
  · rw [← readMmapOrFallback_false]
    exact readMmapOrFallback_write false partitionId hcapacity
  · rw [← readMmapOrFallback_false]
    exact hother other hne false
  · rw [← readMmapOrFallback_false]
    exact readMmapOrFallback_truncated false expected hcapacity hstart hne

/-- A payload of two bytes, the file cut off in the length field. -/
theorem partition_file_exact_cut :
    read .little (some (write .little 7 [1, 2])) 7 = .ok [1, 2] ∧
      ∃ exception, readMmapOrFallback .little true (some ((write .little 7 [1, 2]).take 17)) 7 =
        .error exception :=
  have hexact := partition_file_exact .little 7 [1, 2] (by decide)
  ⟨hexact.1.1, (hexact.2.2 _ (List.take_prefix _ _) (by decide +kernel) 7).2 true⟩

end Written

end PartitionFile

end VeloGraphX
