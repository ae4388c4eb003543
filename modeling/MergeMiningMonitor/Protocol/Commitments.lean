import MergeMiningMonitor.AuxPow.Commitment

/-!
# Protocol — Commitments

Coinbase outputs that name accounts of protocols which are not merge mined (`protocol_commitment.rs`):
CORE and exSat.  An output is recognized by a magic in its first push, at byte 2 or behind a `PUSHDATA`
opcode, and it decodes as valid only in the exact layout.  One of the CORE outputs is marked, the one
that Core DAO's own parser reads.

The code takes slices that could be out of bounds; here such a slice is `none`, and so is what is
computed with it.  `commitments_exact` says that this does not happen, which outputs are reported, that
the valid ones are the encodings of their payloads, and which one is marked.
-/

namespace MergeMiningMonitor.Protocol

open List Option
open AuxPow (Bytes)
open Slices (OccursAt)

/-! ### The decoder -/

inductive CommitmentProtocol
  | core
  | exsat
deriving DecidableEq

/-- An array of bytes. -/
structure BytesOf (n : ℕ) where
  bytes : Bytes
  size : bytes.length = n
deriving DecidableEq

/-- `CommitmentPayload`; an account is its characters. -/
inductive CommitmentPayload
  | core (validator rewardAddress : BytesOf 20) (bindingHash : Option (BytesOf 32))
  | exsat (account : List Char)
deriving DecidableEq

inductive MalformedReason
  | wrongPushLength
  | nestedHeader
  | trailingBytes
  | truncated
  | accountByteOutOfRange
  | invalidAccount
deriving DecidableEq

inductive DecodeStatus
  | valid (payload : CommitmentPayload)
  | malformed (reason : MalformedReason)
  | unsupportedVersion (version : UInt8)
deriving DecidableEq

structure ProtocolCommitment where
  vout : ℕ
  protocol : CommitmentProtocol
  script : Bytes
  status : DecodeStatus
  upstreamSelected : Option Bool
deriving DecidableEq

def opReturn : UInt8 := 0x6a

def coreMagic : Bytes := [0x43, 0x4f, 0x52, 0x45]

def exsatMagic : Bytes := [0x45, 0x58, 0x53, 0x41, 0x54]

def coreHeader : Bytes := opReturn :: 0x2d :: coreMagic ++ [1]

def coreScriptLen : ℕ := 47

def coreWithBindingHashLen : ℕ := 79

def exsatAlphabet : List Char := "abcdefghijklmnopqrstuvwxyz12345.".toList

/-- `bytes[start..]` -/
def sliceFrom (bytes : Bytes) (start : ℕ) : Option Bytes :=
  if start ≤ bytes.length then some (bytes.drop start) else none

/-- `bytes[start..stop]` -/
def slice (bytes : Bytes) (start stop : ℕ) : Option Bytes :=
  if start ≤ stop ∧ stop ≤ bytes.length then some ((bytes.drop start).take (stop - start)) else none

/-- `try_into().expect(..)` -/
def exactly (n : ℕ) (bytes : Bytes) : Option (BytesOf n) :=
  if h : bytes.length = n then some ⟨bytes, h⟩ else none

def pushdataAt (opcode : UInt8) : Option ℕ :=
  if opcode = 0x4c then some 3 else if opcode = 0x4d then some 4 else if opcode = 0x4e then some 6 else none

variable (script : Bytes)

/-- The magic at a position, and the position after it. -/
def magicAt (position : ℕ) : Option (CommitmentProtocol × ℕ) :=
  if script.length < position then none
  else if exsatMagic.isPrefixOf (script.drop position) then some (.exsat, position + 5)
  else if coreMagic.isPrefixOf (script.drop position) then some (.core, position + 4)
  else none

def recognize : Option (CommitmentProtocol × ℕ) := do
  let opcode ← script[1]?
  (2 :: (pushdataAt opcode).toList).findSome? (magicAt script)

/-- The payload of `decode_core`. -/
def corePayload (bindingHash : Option (BytesOf 32)) : Option CommitmentPayload := do
  let validator ← (slice script 7 27).bind (exactly 20)
  let rewardAddress ← (slice script 27 47).bind (exactly 20)
  return .core validator rewardAddress bindingHash

def decodeCore (versionAt : ℕ) : Option (Except MalformedReason CommitmentPayload) :=
  let exact := coreHeader.isPrefixOf script
  if script.length = coreScriptLen && exact then (corePayload script none).map .ok
  else if script.length = coreWithBindingHashLen && exact then
    ((sliceFrom script coreScriptLen).bind (exactly 32)).bind fun bindingHash =>
      (corePayload script (some bindingHash)).map .ok
  else
    (sliceFrom script (versionAt + 1)).map fun rest =>
      if coreHeader.isPrefixOf rest then .error .nestedHeader
      else if !exact then .error .wrongPushLength
      else if script.length < coreScriptLen then .error .truncated
      else .error .trailingBytes

/-- The end of `decode_exsat`. -/
def decodeAccount (symbols : Bytes) : Except MalformedReason CommitmentPayload :=
  if symbols = [] ∨ 12 < symbols.length then .error .invalidAccount
  else
    match symbols.mapM fun symbol => exsatAlphabet[symbol.toNat]? with
    | none => .error .accountByteOutOfRange
    | some account => if account.getLast? = some '.' then .error .invalidAccount else .ok (.exsat account)

def decodeExsat (versionAt : ℕ) : Option (Except MalformedReason CommitmentPayload) :=
  if versionAt ≠ 7 then some (.error .wrongPushLength)
  else
    script[1]?.bind fun declared =>
      -- `script.len() - 2`
      if script.length < 2 then none
      else if script.length - 2 < declared.toNat then some (.error .truncated)
      else if declared.toNat < script.length - 2 then some (.error .trailingBytes)
      else (sliceFrom script (versionAt + 1)).map decodeAccount

/-- `map_or_else(DecodeStatus::Malformed, DecodeStatus::Valid)` -/
def DecodeStatus.ofResult : Except MalformedReason CommitmentPayload → DecodeStatus
  | .error reason => .malformed reason
  | .ok payload => .valid payload

/-- The decoder of a protocol. -/
def decodePayload : CommitmentProtocol → Bytes → ℕ → Option (Except MalformedReason CommitmentPayload)
  | .core => decodeCore
  | .exsat => decodeExsat

/-- The status of a recognized script. -/
def decodeStatus (protocol : CommitmentProtocol) (versionAt : ℕ) : Option DecodeStatus :=
  match script[versionAt]? with
  | none => some (.malformed .truncated)
  | some version =>
    if version = 1 then (decodePayload protocol script versionAt).map .ofResult
    else some (.unsupportedVersion version)

/-- The body of the `filter_map` of `decode_protocol_commitments`. -/
def decodeOutput (vout : ℕ) : Option (Option ProtocolCommitment) :=
  if script.head? ≠ some opReturn then some none
  else
    match recognize script with
    | none => some none
    | some (protocol, versionAt) =>
      (decodeStatus script protocol versionAt).map fun status =>
        if vout < 4294967296 then
          some ⟨vout, protocol, script, status, if protocol = .core then some false else none⟩
        else none

def coreDaoReads : Option Bool :=
  if coreScriptLen ≤ script.length then (slice script 2 7).map fun header => header = coreHeader.drop 2
  else some false

/-- Marks the first CORE commitment from output 1 on that Core DAO reads. -/
def markSelected : List ProtocolCommitment → Option (List ProtocolCommitment)
  | [] => some []
  | c :: commitments =>
    if c.upstreamSelected.isSome && 0 < c.vout then
      (coreDaoReads c.script).bind fun reads =>
        if reads then some ({ c with upstreamSelected := some true } :: commitments)
        else (markSelected commitments).map (c :: ·)
    else (markSelected commitments).map (c :: ·)

/-- `decode_protocol_commitments`, of the outputs' scripts. -/
def decodeProtocolCommitments (outputs : List Bytes) : Option (List ProtocolCommitment) := do
  let decoded ← outputs.zipIdx.mapM fun (script, vout) => decodeOutput script vout
  markSelected decoded.reduceOption

/-! ### The layouts -/

/-- The byte of a symbol. -/
def symbolByte (symbol : Char) : UInt8 := UInt8.ofNat (exsatAlphabet.idxOf symbol)

namespace CommitmentPayload

/-- The script that declares a payload. -/
def encode : CommitmentPayload → Bytes
  | .core validator rewardAddress bindingHash =>
    opReturn :: 0x2d ::
      (coreMagic ++ 1 :: (validator.bytes ++ rewardAddress.bytes ++ bindingHash.elim [] (·.bytes)))
  | .exsat account =>
    opReturn :: UInt8.ofNat (6 + account.length) :: (exsatMagic ++ 1 :: account.map symbolByte)

/-- The accounts that can be declared. -/
def WellFormed : CommitmentPayload → Prop
  | .core _ _ _ => True
  | .exsat account => account ≠ [] ∧ account.length ≤ 12 ∧ (∀ symbol ∈ account, symbol ∈ exsatAlphabet) ∧
      account.getLast? ≠ some '.'

end CommitmentPayload

/-- A magic stands at the position. -/
def MagicAt (position : ℕ) : Prop :=
  OccursAt exsatMagic script position ∨ OccursAt coreMagic script position

/-- A magic stands where the first push of the script can have it: after `OP_RETURN` and a byte, or
after `OP_RETURN` and a `PUSHDATA` opcode with its length. -/
def Recognized : Prop :=
  script.head? = some opReturn ∧
    (MagicAt script 2 ∨ (script[1]? = some 0x4c ∧ MagicAt script 3) ∨
      (script[1]? = some 0x4d ∧ MagicAt script 4) ∨
      (script[1]? = some 0x4e ∧ MagicAt script 6))

/-- What Core DAO's parser asks of an output. -/
def UpstreamReads : Prop :=
  47 ≤ script.length ∧ script[0]? = some opReturn ∧ (script.drop 2).take 4 = coreMagic ∧ script[6]? = some 1

/-! ### Recognizing -/

variable {script} {protocol : CommitmentProtocol} {versionAt : ℕ}
  {payload : CommitmentPayload} {symbols : Bytes}

theorem magicAt_isSome {position : ℕ} : (magicAt script position).isSome ↔ MagicAt script position := by
  rw [magicAt, MagicAt, OccursAt, OccursAt]
  split
  · next hshort =>
      rw [drop_eq_nil_of_le hshort.le]
      simp [exsatMagic, coreMagic]
  · simp only [List.isPrefixOf_iff_prefix]
    split
    · next h => simp [h]
    · next h =>
        split
        · next h' => simp [h']
        · next h' => simp [h, h']

theorem magicAt_eq_some {position versionAt : ℕ}
    (h : magicAt script position = some (protocol, versionAt)) :
    (protocol = .exsat ∧ versionAt = position + 5 ∧ OccursAt exsatMagic script position) ∨
      (protocol = .core ∧ versionAt = position + 4 ∧ OccursAt coreMagic script position) := by
  rw [magicAt] at h
  simp only [List.isPrefixOf_iff_prefix] at h
  split at h
  · cases h
  · split at h
    · next hmagic =>
        cases h
        exact .inl ⟨rfl, rfl, hmagic⟩
    · split at h
      · next hmagic =>
          cases h
          exact .inr ⟨rfl, rfl, hmagic⟩
      · cases h

theorem recognize_eq {opcode : UInt8} (h : script[1]? = some opcode) :
    recognize script = (magicAt script 2).or ((pushdataAt opcode).bind (magicAt script)) := by
  rw [recognize, h]
  show (2 :: (pushdataAt opcode).toList).findSome? (magicAt script) = _
  rw [findSome?_cons]
  cases magicAt script 2 with
  | some _ => rfl
  | none =>
    cases pushdataAt opcode with
    | none => rfl
    | some position =>
      show ([position]).findSome? (magicAt script) = magicAt script position
      rw [findSome?_cons]
      cases magicAt script position <;> rfl

theorem pushdataAt_eq_some {opcode : UInt8} {position : ℕ} : pushdataAt opcode = some position ↔
    (opcode = 0x4c ∧ position = 3) ∨ (opcode = 0x4d ∧ position = 4) ∨ (opcode = 0x4e ∧ position = 6) := by
  rw [pushdataAt]
  split
  · next h => simp [h, eq_comm]
  · split
    · next h => simp [h, eq_comm]
    · split
      · next h => simp [h, eq_comm]
      · next h h' h'' => simp [h, h', h'']

theorem not_magicAt_of_short (h : script[1]? = none) : ¬ MagicAt script 2 := by
  rw [getElem?_eq_none_iff] at h
  rw [MagicAt, OccursAt, OccursAt, drop_eq_nil_of_le (by omega)]
  simp [exsatMagic, coreMagic]

theorem isSome_recognize (hreturn : script.head? = some opReturn) :
    (recognize script).isSome ↔ Recognized script := by
  rw [Recognized, and_iff_right hreturn]
  cases hopcode : script[1]? with
  | none =>
    have hnone : recognize script = none := by rw [recognize, hopcode]; rfl
    have := not_magicAt_of_short hopcode
    simp [hnone, this]
  | some opcode =>
    have hbehind : ((pushdataAt opcode).bind (magicAt script)).isSome ↔
        ∃ position, pushdataAt opcode = some position ∧ MagicAt script position := by
      simp only [isSome_bind, Option.any_eq_true, magicAt_isSome]
    rw [recognize_eq hopcode, isSome_or, Bool.or_eq_true, magicAt_isSome, hbehind]
    simp [pushdataAt_eq_some, or_and_right, exists_or]

theorem recognize_eq_some (h : recognize script = some (protocol, versionAt)) :
    ∃ position, magicAt script position = some (protocol, versionAt) := by
  cases hopcode : script[1]? with
  | none =>
    rw [recognize, hopcode] at h
    cases h
  | some opcode =>
    rw [recognize_eq hopcode] at h
    rcases or_eq_some_iff.mp h with h | ⟨-, h⟩
    · exact ⟨2, h⟩
    · obtain ⟨position, -, h⟩ := bind_eq_some_iff.mp h
      exact ⟨position, h⟩

theorem script_shape {script magic : Bytes} {version : UInt8} (hreturn : script.head? = some opReturn)
    (hne : magic ≠ []) (hmagic : OccursAt magic script 2)
    (hversion : script[2 + magic.length]? = some version) :
    ∃ push rest, script = opReturn :: push :: (magic ++ version :: rest) := by
  obtain ⟨tail, htail⟩ := hmagic
  match script, hreturn with
  | [_], _ => simp_all
  | first :: push :: more, hreturn =>
    obtain rfl : first = opReturn := by simpa using hreturn
    have hmore : more = magic ++ tail := by simpa using htail.symm
    subst hmore
    cases tail with
    | nil => simp [Nat.add_comm 2] at hversion
    | cons v rest =>
      have : v = version := by simpa [Nat.add_comm 2] using hversion
      exact ⟨push, rest, by rw [this]⟩

/-! ### CORE -/

theorem slice_eq {bytes : Bytes} {start stop : ℕ} (h : start ≤ stop ∧ stop ≤ bytes.length) :
    slice bytes start stop = some ((bytes.drop start).take (stop - start)) :=
  if_pos h

theorem exactly_eq {n : ℕ} {bytes : Bytes} (h : bytes.length = n) : exactly n bytes = some ⟨bytes, h⟩ :=
  dif_pos h

theorem length_coreHeader : coreHeader.length = 7 := rfl

/-- A script in the layout of CORE, up to the binding hash. -/
def coreLayout (validator rewardAddress : BytesOf 20) (rest : Bytes) : Bytes :=
  coreHeader ++ (validator.bytes ++ (rewardAddress.bytes ++ rest))

section Core

variable (validator rewardAddress : BytesOf 20) (rest : Bytes) (bindingHash : Option (BytesOf 32))

theorem length_coreLayout : (coreLayout validator rewardAddress rest).length =
    coreScriptLen + rest.length := by
  simp only [coreLayout, length_append, length_coreHeader, validator.size, rewardAddress.size,
    coreScriptLen]
  omega

theorem drop_coreLayout : (coreLayout validator rewardAddress rest).drop coreScriptLen = rest := by
  rw [coreLayout, ← append_assoc, ← append_assoc]
  exact drop_left' (by simp [length_coreHeader, validator.size, rewardAddress.size, coreScriptLen])

theorem corePayload_eq : corePayload (coreLayout validator rewardAddress rest) bindingHash =
    some (.core validator rewardAddress bindingHash) := by
  have hlength := length_coreLayout validator rewardAddress rest
  rw [coreScriptLen] at hlength
  have hvalidator : ((coreLayout validator rewardAddress rest).drop 7).take 20 = validator.bytes := by
    rw [coreLayout, drop_left' length_coreHeader, take_left' validator.size]
  have hreward : ((coreLayout validator rewardAddress rest).drop 27).take 20 = rewardAddress.bytes := by
    rw [coreLayout, ← append_assoc, drop_left' (by simp [length_coreHeader, validator.size]),
      take_left' rewardAddress.size]
  rw [corePayload, slice_eq ⟨by decide, by omega⟩, slice_eq ⟨by decide, by omega⟩, bind_some, bind_some]
  simp only [Nat.reduceSub, hvalidator, hreward]
  rw [exactly_eq validator.size, exactly_eq rewardAddress.size]
  rfl

theorem exists_coreLayout (hexact : coreHeader <+: script) (hlength : coreScriptLen ≤ script.length) :
    ∃ validator rewardAddress rest, script = coreLayout validator rewardAddress rest := by
  obtain ⟨rest, rfl⟩ := hexact
  rw [length_append, length_coreHeader, coreScriptLen] at hlength
  refine ⟨⟨rest.take 20, by rw [length_take]; omega⟩,
    ⟨(rest.drop 20).take 20, by rw [length_take, length_drop]; omega⟩, (rest.drop 20).drop 20, ?_⟩
  rw [coreLayout, take_append_drop, take_append_drop]

theorem encode_core : (CommitmentPayload.core validator rewardAddress bindingHash).encode =
    coreLayout validator rewardAddress (bindingHash.elim [] (·.bytes)) := by
  simp [CommitmentPayload.encode, coreLayout, coreHeader, append_assoc]

theorem decodeCore_encode (versionAt : ℕ) :
    decodeCore (CommitmentPayload.core validator rewardAddress bindingHash).encode versionAt =
      some (.ok (.core validator rewardAddress bindingHash)) := by
  have hexact : coreHeader.isPrefixOf
      (coreLayout validator rewardAddress (bindingHash.elim [] (·.bytes))) = true :=
    isPrefixOf_iff_prefix.mpr (prefix_append _ _)
  rw [encode_core, decodeCore, hexact, Bool.and_true, Bool.and_true, length_coreLayout]
  cases bindingHash with
  | none => rw [if_pos (by decide), corePayload_eq]; rfl
  | some hash =>
    have hsize : ((some hash).elim [] (·.bytes)).length = 32 := hash.size
    rw [hsize, if_neg (by decide), if_pos (by decide), sliceFrom, length_coreLayout,
      if_pos (Nat.le_add_right _ _), drop_coreLayout, bind_some]
    show (exactly 32 hash.bytes).bind _ = _
    rw [exactly_eq hash.size, bind_some, corePayload_eq]
    rfl

end Core

/-- **What `decode_core` accepts** is an encoding. -/
theorem decodeCore_spec (h : versionAt < script.length) :
    (∃ validator rewardAddress bindingHash,
        script = (CommitmentPayload.core validator rewardAddress bindingHash).encode) ∨
      ∃ reason, decodeCore script versionAt = some (.error reason) := by
  by_cases hexact : coreHeader <+: script ∧
      (script.length = coreScriptLen ∨ script.length = coreWithBindingHashLen)
  · obtain ⟨hheader, hlength⟩ := hexact
    obtain ⟨validator, rewardAddress, rest, rfl⟩ :=
      exists_coreLayout hheader (hlength.elim Eq.ge fun h => h ▸ by decide)
    rw [length_coreLayout, coreWithBindingHashLen, coreScriptLen] at hlength
    rcases hlength with hlength | hlength
    · obtain rfl := length_eq_zero_iff.mp (by omega : rest.length = 0)
      exact .inl ⟨validator, rewardAddress, none, (encode_core validator rewardAddress none).symm⟩
    · exact .inl ⟨validator, rewardAddress, some ⟨rest, by omega⟩, by rw [encode_core]; rfl⟩
  · right
    rw [← isPrefixOf_iff_prefix] at hexact
    rw [decodeCore, if_neg, if_neg, sliceFrom, if_pos (Nat.succ_le_of_lt h), map_some]
    · simp only [Option.some.injEq]
      split
      · exact ⟨_, rfl⟩
      · split
        · exact ⟨_, rfl⟩
        · split <;> exact ⟨_, rfl⟩
    all_goals
      rw [Bool.and_eq_true, decide_eq_true_eq]
      tauto

/-! ### exSat -/

theorem nodup_exsatAlphabet : exsatAlphabet.Nodup := by decide

theorem getElem?_exsatAlphabet {b : UInt8} {symbol : Char} :
    exsatAlphabet[b.toNat]? = some symbol ↔ symbol ∈ exsatAlphabet ∧ b = symbolByte symbol := by
  constructor
  · intro h
    obtain ⟨hlt, hsymbol⟩ := List.getElem?_eq_some_iff.mp h
    refine ⟨List.mem_of_getElem? h, ?_⟩
    rw [symbolByte, ← hsymbol, nodup_exsatAlphabet.idxOf_getElem]
    exact UInt8.ofNat_toNat.symm
  · rintro ⟨hmem, rfl⟩
    have hlt : exsatAlphabet.idxOf symbol < 32 := idxOf_lt_length_of_mem hmem
    rw [symbolByte, UInt8.toNat_ofNat', Nat.mod_eq_of_lt (by omega)]
    exact getElem?_idxOf hmem

theorem mapM_symbols {account : List Char} :
    (symbols.mapM fun symbol => exsatAlphabet[symbol.toNat]?) = some account ↔
      (∀ symbol ∈ account, symbol ∈ exsatAlphabet) ∧ symbols = account.map symbolByte := by
  induction symbols generalizing account with
  | nil =>
    cases account with
    | nil => simp
    | cons => simp
  | cons b symbols ih =>
    rw [mapM_cons]
    constructor
    · intro h
      obtain ⟨symbol, hsymbol, h⟩ := bind_eq_some_iff.mp h
      obtain ⟨rest, hrest, h⟩ := bind_eq_some_iff.mp h
      obtain rfl := some.inj h
      obtain ⟨hmem, rfl⟩ := getElem?_exsatAlphabet.mp hsymbol
      obtain ⟨hall, rfl⟩ := ih.mp hrest
      exact ⟨forall_mem_cons.mpr ⟨hmem, hall⟩, rfl⟩
    · rintro ⟨hall, heq⟩
      cases account with
      | nil => cases heq
      | cons symbol account =>
        obtain ⟨rfl, rfl⟩ := List.cons.inj heq
        obtain ⟨hmem, hall⟩ := forall_mem_cons.mp hall
        rw [getElem?_exsatAlphabet.mpr ⟨hmem, rfl⟩, ih.mpr ⟨hall, rfl⟩]
        rfl

theorem decodeAccount_eq_ok : decodeAccount symbols = .ok payload ↔
      ∃ account, payload = .exsat account ∧ payload.WellFormed ∧ symbols = account.map symbolByte := by
  rw [decodeAccount]
  constructor
  · intro h
    split at h
    · cases h
    · next hlength =>
        split at h
        · cases h
        · next account haccount =>
            split at h
            · cases h
            · next hdot =>
                obtain rfl := Except.ok.inj h
                obtain ⟨hall, rfl⟩ := mapM_symbols.mp haccount
                rw [not_or, map_eq_nil_iff, length_map, not_lt] at hlength
                exact ⟨account, rfl, ⟨hlength.1, hlength.2, hall, hdot⟩, rfl⟩
  · rintro ⟨account, rfl, ⟨hne, hlength, hall, hdot⟩, rfl⟩
    rw [if_neg, mapM_symbols.mpr ⟨hall, rfl⟩]
    · exact if_neg hdot
    · rw [not_or, map_eq_nil_iff, length_map, not_lt]
      exact ⟨hne, hlength⟩

theorem decodeExsat_shape (push : UInt8) (symbols : Bytes) :
    decodeExsat (opReturn :: push :: (exsatMagic ++ 1 :: symbols)) 7 =
      some (if 6 + symbols.length < push.toNat then .error .truncated
        else if push.toNat < 6 + symbols.length then .error .trailingBytes else decodeAccount symbols) := by
  have hlength : (opReturn :: push :: (exsatMagic ++ 1 :: symbols)).length = 8 + symbols.length := by
    simp only [exsatMagic, length_cons, length_append, length_nil]
    omega
  have hsub : 8 + symbols.length - 2 = 6 + symbols.length := by omega
  have hopcode : (opReturn :: push :: (exsatMagic ++ 1 :: symbols))[1]? = some push := rfl
  have hslice : sliceFrom (opReturn :: push :: (exsatMagic ++ 1 :: symbols)) (7 + 1) = some symbols := by
    rw [sliceFrom, hlength, if_pos (by omega)]
    rfl
  rw [decodeExsat, if_neg (by decide), hopcode, bind_some, hlength, hsub, if_neg (by omega), hslice]
  split
  · rfl
  · split <;> rfl

/-- **What `decode_exsat` accepts** is an encoding. -/
theorem decodeExsat_eq_ok {push : UInt8} :
    decodeExsat (opReturn :: push :: (exsatMagic ++ 1 :: symbols)) 7 = some (.ok payload) ↔
      ∃ account, payload = .exsat account ∧ payload.WellFormed ∧
        opReturn :: push :: (exsatMagic ++ 1 :: symbols) = payload.encode := by
  rw [decodeExsat_shape, Option.some.injEq]
  constructor
  · intro h
    split at h
    · cases h
    · split at h
      · cases h
      · next hle hge =>
          obtain ⟨account, rfl, hwell, rfl⟩ := decodeAccount_eq_ok.mp h
          refine ⟨account, rfl, hwell, ?_⟩
          rw [length_map] at hle hge
          have hpush : push.toNat = 6 + account.length := by omega
          rw [CommitmentPayload.encode, ← hpush, UInt8.ofNat_toNat]
  · rintro ⟨account, rfl, hwell, heq⟩
    obtain ⟨-, htail⟩ := List.cons.inj heq
    obtain ⟨rfl, hbody⟩ := List.cons.inj htail
    obtain rfl : symbols = account.map symbolByte := (List.cons.inj (append_cancel_left hbody)).2
    have hlength : account.length ≤ 12 := hwell.2.1
    have hpush : (UInt8.ofNat (6 + account.length)).toNat = 6 + account.length := by
      rw [UInt8.toNat_ofNat', Nat.mod_eq_of_lt (by omega)]
    rw [length_map, hpush, if_neg (lt_irrefl _), if_neg (lt_irrefl _)]
    exact decodeAccount_eq_ok.mpr ⟨account, rfl, hwell, rfl⟩

/-! ### One output -/

/-- What is reported of a script: its protocol and status. -/
def reported (script : Bytes) : Option (CommitmentProtocol × DecodeStatus) :=
  if script.head? ≠ some opReturn then none
  else (recognize script).bind fun found =>
    (decodeStatus script found.1 found.2).map fun status => (found.1, status)

/-- The commitment of an output, before one is marked. -/
def reportOutput (output : Bytes × ℕ) : Option ProtocolCommitment :=
  (reported output.1).bind fun found =>
    if output.2 < 4294967296 then
      some ⟨output.2, found.1, output.1, found.2, if found.1 = .core then some false else none⟩
    else none

theorem reported_eq {status : DecodeStatus}
    (hreturn : script.head? = some opReturn) (hrecognize : recognize script = some (protocol, versionAt))
    (hstatus : decodeStatus script protocol versionAt = some status) :
    reported script = some (protocol, status) := by
  rw [reported, if_neg (not_not.mpr hreturn), hrecognize, bind_some, hstatus]
  rfl

/-- **No slice is out of bounds.** -/
theorem isSome_decodeStatus
    (hreturn : script.head? = some opReturn) (h : recognize script = some (protocol, versionAt)) :
    (decodeStatus script protocol versionAt).isSome := by
  rw [decodeStatus]
  cases hversion : script[versionAt]? with
  | none => rfl
  | some version =>
    dsimp only
    by_cases hone : version = 1
    · subst hone
      rw [if_pos rfl, isSome_map]
      obtain ⟨position, hmagic⟩ := recognize_eq_some h
      rcases magicAt_eq_some hmagic with ⟨rfl, rfl, hoccurs⟩ | ⟨rfl, rfl, -⟩
      · by_cases htwo : position = 2
        · subst htwo
          obtain ⟨push, rest, rfl⟩ := script_shape hreturn (by decide) hoccurs hversion
          rw [decodePayload, decodeExsat_shape]
          rfl
        · rw [decodePayload, decodeExsat, if_pos (by omega)]
          rfl
      · rw [decodePayload]
        rcases decodeCore_spec (List.getElem?_eq_some_iff.mp hversion).1 with ⟨v, r, b, rfl⟩ | ⟨reason, h⟩
        · rw [decodeCore_encode]
          rfl
        · rw [h]
          rfl
    · rw [if_neg hone]
      rfl

theorem decodeOutput_eq (script : Bytes) (vout : ℕ) :
    decodeOutput script vout = some (reportOutput (script, vout)) := by
  rw [decodeOutput, reportOutput, reported]
  split
  · rfl
  · next hreturn =>
      rw [not_not] at hreturn
      cases h : recognize script with
      | none => rfl
      | some found =>
        obtain ⟨protocol, versionAt⟩ := found
        obtain ⟨status, hstatus⟩ := isSome_iff_exists.mp (isSome_decodeStatus hreturn h)
        simp only [hstatus, map_some, bind_some]

/-- **Which scripts are reported.** -/
theorem isSome_reported : (reported script).isSome ↔ Recognized script := by
  rw [reported]
  split
  · next hreturn =>
      simp only [isSome_none, Bool.false_eq_true, false_iff]
      exact fun h => hreturn h.1
  · next hreturn =>
      rw [not_not] at hreturn
      rw [← isSome_recognize hreturn]
      cases h : recognize script with
      | none => rfl
      | some found =>
        obtain ⟨protocol, versionAt⟩ := found
        simpa using isSome_decodeStatus hreturn h

theorem decodeStatus_eq_valid : decodeStatus script protocol versionAt = some (.valid payload) ↔
      script[versionAt]? = some 1 ∧ decodePayload protocol script versionAt = some (.ok payload) := by
  rw [decodeStatus]
  cases script[versionAt]? with
  | none => simp
  | some version =>
    dsimp only
    split
    · next hone =>
        rw [hone, and_iff_right rfl, map_eq_some_iff]
        constructor
        · rintro ⟨decoded, hdecoded, hvalid⟩
          cases decoded with
          | error => cases hvalid
          | ok p =>
            obtain rfl := DecodeStatus.valid.inj hvalid
            exact hdecoded
        · exact fun h => ⟨_, h, rfl⟩
    · next hone => simp [hone]

/-- **Valid is exact.** -/
theorem reported_valid_iff : (∃ protocol, reported script = some (protocol, .valid payload)) ↔
      payload.WellFormed ∧ script = payload.encode := by
  constructor
  · rintro ⟨protocol, h⟩
    rw [reported] at h
    split at h
    · cases h
    · next hreturn =>
        rw [not_not] at hreturn
        obtain ⟨⟨protocol', versionAt⟩, hrecognize, h⟩ := bind_eq_some_iff.mp h
        obtain ⟨status, hstatus, heq⟩ := map_eq_some_iff.mp h
        obtain ⟨rfl, rfl⟩ := Prod.mk.inj heq
        obtain ⟨hversion, hpayload⟩ := decodeStatus_eq_valid.mp hstatus
        obtain ⟨position, hmagic⟩ := recognize_eq_some hrecognize
        rcases magicAt_eq_some hmagic with ⟨rfl, rfl, hoccurs⟩ | ⟨rfl, -, -⟩
        · obtain rfl : position = 2 := by
            by_contra hne
            rw [decodePayload, decodeExsat, if_pos (by omega)] at hpayload
            cases hpayload
          obtain ⟨push, rest, rfl⟩ := script_shape hreturn (by decide) hoccurs hversion
          obtain ⟨-, -, hwell, heq⟩ := decodeExsat_eq_ok.mp hpayload
          exact ⟨hwell, heq⟩
        · rw [decodePayload] at hpayload
          rcases decodeCore_spec (List.getElem?_eq_some_iff.mp hversion).1 with
            ⟨v, r, b, rfl⟩ | ⟨reason, herror⟩
          · rw [decodeCore_encode] at hpayload
            obtain rfl := Except.ok.inj (some.inj hpayload)
            exact ⟨trivial, rfl⟩
          · rw [herror] at hpayload
            cases hpayload
  · rintro ⟨hwell, rfl⟩
    cases payload with
    | core validator rewardAddress bindingHash =>
      have hstatus : decodeStatus (CommitmentPayload.core validator rewardAddress
          bindingHash).encode .core 6 =
          some (.valid (.core validator rewardAddress bindingHash)) :=
        decodeStatus_eq_valid.mpr ⟨rfl, decodeCore_encode validator rewardAddress bindingHash 6⟩
      exact ⟨.core, reported_eq rfl rfl hstatus⟩
    | exsat account =>
      have hstatus : decodeStatus (CommitmentPayload.exsat account).encode .exsat 7 =
          some (.valid (.exsat account)) :=
        decodeStatus_eq_valid.mpr ⟨rfl, decodeExsat_eq_ok.mpr ⟨account, rfl, hwell, rfl⟩⟩
      exact ⟨.exsat, reported_eq rfl rfl hstatus⟩

/-! ### The output that Core DAO reads -/

theorem take_five {l magic : Bytes} {version : UInt8} (hmagic : magic.length = 4) :
    l.take 5 = magic ++ [version] ↔ l.take 4 = magic ∧ l[4]? = some version := by
  have htake : l.take 5 = l.take 4 ++ l[4]?.toList := take_add_one
  rw [htake]
  constructor
  · intro h
    have hlength := congrArg List.length h
    rw [length_append, length_append, hmagic, length_take] at hlength
    cases hversion : l[4]? with
    | none =>
      rw [hversion] at hlength
      simp at hlength
      omega
    | some v =>
      rw [hversion] at h
      obtain ⟨rfl, hv⟩ := append_inj' h rfl
      exact ⟨rfl, congrArg some (singleton_injective hv)⟩
  · rintro ⟨rfl, hversion⟩
    rw [hversion]
    rfl

theorem coreDaoReads_eq_true (hreturn : script.head? = some opReturn) :
    coreDaoReads script = some true ↔ UpstreamReads script := by
  rw [coreDaoReads, UpstreamReads, ← head?_eq_getElem?]
  split
  · next hlong =>
      rw [coreScriptLen] at hlong
      rw [slice_eq ⟨by decide, by omega⟩, map_some, Option.some.injEq, decide_eq_true_eq]
      have hversion : (script.drop 2)[4]? = script[6]? := by rw [getElem?_drop]
      show (script.drop 2).take 5 = coreMagic ++ [1] ↔ _
      rw [take_five rfl, hversion]
      constructor
      · rintro ⟨hmagic, hone⟩
        exact ⟨hlong, hreturn, hmagic, hone⟩
      · rintro ⟨-, -, hmagic, hone⟩
        exact ⟨hmagic, hone⟩
  · next hshort =>
      rw [coreScriptLen] at hshort
      constructor
      · intro h
        cases h
      · exact fun h => absurd h.1 hshort

theorem isSome_coreDaoReads (script : Bytes) : (coreDaoReads script).isSome := by
  rw [coreDaoReads]
  split
  · next hlong =>
      rw [coreScriptLen] at hlong
      rw [slice_eq ⟨by decide, by omega⟩]
      rfl
  · rfl

theorem reported_of_upstreamReads (h : UpstreamReads script) :
    ∃ status, reported script = some (.core, status) := by
  obtain ⟨hlength, hreturn, hmagic, hversion⟩ := h
  rw [← head?_eq_getElem?] at hreturn
  have hoccurs : OccursAt coreMagic script 2 := hmagic ▸ take_prefix _ _
  obtain ⟨push, rest, rfl⟩ := script_shape hreturn (by decide) hoccurs hversion
  have hrecognize : recognize (opReturn :: push :: (coreMagic ++ 1 :: rest)) = some (.core, 6) := rfl
  obtain ⟨status, hstatus⟩ := isSome_iff_exists.mp (isSome_decodeStatus hreturn hrecognize)
  exact ⟨status, reported_eq hreturn hrecognize hstatus⟩

/-- The commitment is one that can be marked. -/
def Selectable (c : ProtocolCommitment) : Prop :=
  c.upstreamSelected.isSome ∧ 0 < c.vout ∧ coreDaoReads c.script = some true

/-- **The first one is marked.** -/
theorem markSelected_spec (commitments : List ProtocolCommitment) :
    ((∀ c ∈ commitments, ¬ Selectable c) ∧ markSelected commitments = some commitments) ∨
      ∃ before c after, commitments = before ++ c :: after ∧ (∀ d ∈ before, ¬ Selectable d) ∧ Selectable c ∧
        markSelected commitments = some (before ++ { c with upstreamSelected := some true } :: after) := by
  induction commitments with
  | nil => exact .inl ⟨fun _ h => absurd h not_mem_nil, rfl⟩
  | cons c commitments ih =>
    by_cases hc : Selectable c
    · refine .inr ⟨[], c, commitments, rfl, fun _ h => absurd h not_mem_nil, hc, ?_⟩
      rw [markSelected, if_pos (by simp [hc.1, hc.2.1]), hc.2.2]
      rfl
    · have hskip : markSelected (c :: commitments) = (markSelected commitments).map (c :: ·) := by
        rw [markSelected]
        split
        · next hcheck =>
            rw [Bool.and_eq_true, decide_eq_true_eq] at hcheck
            obtain ⟨reads, hreads⟩ := isSome_iff_exists.mp (isSome_coreDaoReads c.script)
            cases reads with
            | true => exact absurd ⟨hcheck.1, hcheck.2, hreads⟩ hc
            | false =>
              rw [hreads]
              rfl
        · rfl
      rcases ih with ⟨hnone, hmark⟩ | ⟨before, d, after, rfl, hbefore, hd, hmark⟩
      · exact .inl ⟨forall_mem_cons.mpr ⟨hc, hnone⟩, by rw [hskip, hmark]; rfl⟩
      · exact .inr ⟨c :: before, d, after, rfl, forall_mem_cons.mpr ⟨hc, hbefore⟩, hd,
          by rw [hskip, hmark]; rfl⟩

/-! ### All outputs -/

/-- The commitments of the outputs, before one is marked. -/
def reports (outputs : List Bytes) : List ProtocolCommitment := outputs.zipIdx.filterMap reportOutput

theorem decodeProtocolCommitments_eq (outputs : List Bytes) :
    decodeProtocolCommitments outputs = markSelected (reports outputs) := by
  rw [decodeProtocolCommitments, Fallible.mapM_eq_some_map fun output _ =>
    decodeOutput_eq output.1 output.2]
  show markSelected _ = _
  rw [List.reduceOption, filterMap_map]
  rfl

theorem reportOutput_eq_some {output : Bytes × ℕ} {c : ProtocolCommitment} (hvout : output.2 < 4294967296) :
    reportOutput output = some c ↔ reported output.1 = some (c.protocol, c.status) ∧ c.script = output.1 ∧
      c.vout = output.2 ∧ c.upstreamSelected = if c.protocol = .core then some false else none := by
  rw [reportOutput]
  constructor
  · intro h
    obtain ⟨found, hreported, h⟩ := bind_eq_some_iff.mp h
    rw [if_pos hvout] at h
    obtain rfl := some.inj h
    exact ⟨hreported, rfl, rfl, rfl⟩
  · rintro ⟨hreported, hscript, hindex, hselected⟩
    rw [hreported, bind_some, if_pos hvout]
    cases c
    simp_all

/-- What marking leaves of a commitment. -/
def unmarked (c : ProtocolCommitment) : ℕ × CommitmentProtocol × Bytes × DecodeStatus :=
  (c.vout, c.protocol, c.script, c.status)

/-- **Marking changes one mark.** -/
theorem markSelected_marks {reports : List ProtocolCommitment}
    (hnone : ∀ c ∈ reports, c.upstreamSelected ≠ some true)
    (hsorted : reports.Pairwise fun c d => c.vout < d.vout) :
    ∃ commitments, markSelected reports = some commitments ∧
      commitments.map unmarked = reports.map unmarked ∧
      ∀ vout, (∃ c ∈ commitments, c.vout = vout ∧ c.upstreamSelected = some true) ↔
        (∃ c ∈ reports, c.vout = vout ∧ Selectable c) ∧ ∀ d ∈ reports, d.vout < vout → ¬ Selectable d := by
  rcases markSelected_spec reports with ⟨hall, hmark⟩ | ⟨before, c, after, rfl, hbefore, hc, hmark⟩
  · refine ⟨reports, hmark, rfl, fun vout => ⟨?_, ?_⟩⟩
    · rintro ⟨c, hc, -, hselected⟩
      exact absurd hselected (hnone c hc)
    · rintro ⟨⟨c, hmem, -, hc⟩, -⟩
      exact absurd hc (hall c hmem)
  · have hmem : c ∈ before ++ c :: after := mem_append_right _ mem_cons_self
    have hafter : ∀ d ∈ after, c.vout < d.vout := (pairwise_cons.mp (pairwise_append.mp hsorted).2.1).1
    refine ⟨_, hmark, by simp [unmarked], fun vout => ⟨?_, ?_⟩⟩
    · rintro ⟨d, hd, rfl, hselected⟩
      rcases mem_append.mp hd with hd | hd
      · exact absurd hselected (hnone d (mem_append_left _ hd))
      · rcases mem_cons.mp hd with rfl | hd
        · refine ⟨⟨c, hmem, rfl, hc⟩, fun e he hlt => ?_⟩
          rcases mem_append.mp he with he | he
          · exact hbefore e he
          · rcases mem_cons.mp he with rfl | he
            · exact absurd hlt (lt_irrefl _)
            · exact absurd hlt (hafter e he).asymm
        · exact absurd hselected (hnone d (mem_append_right _ (mem_cons_of_mem _ hd)))
    · rintro ⟨⟨d, hd, rfl, hselectable⟩, hfirst⟩
      refine ⟨_, mem_append_right _ mem_cons_self, ?_, rfl⟩
      show c.vout = d.vout
      rcases mem_append.mp hd with hd | hd
      · exact absurd hselectable (hbefore d hd)
      · rcases mem_cons.mp hd with rfl | hd
        · rfl
        · exact absurd hc (hfirst c hmem (hafter d hd))

section Outputs

variable {outputs : List Bytes} (hlength : outputs.length ≤ 4294967296)
include hlength

theorem mem_reports {c : ProtocolCommitment} :
    c ∈ reports outputs ↔ outputs[c.vout]? = some c.script ∧
      reported c.script = some (c.protocol, c.status) ∧
      c.upstreamSelected = if c.protocol = .core then some false else none := by
  rw [reports, mem_filterMap]
  constructor
  · rintro ⟨output, houtput, hc⟩
    have hget := mem_zipIdx_iff_getElem?.mp houtput
    have hvout : output.2 < 4294967296 := (List.getElem?_eq_some_iff.mp hget).1.trans_le hlength
    obtain ⟨hreported, hscript, hindex, hselected⟩ := (reportOutput_eq_some hvout).mp hc
    rw [hscript, hindex]
    exact ⟨hget, hreported, hselected⟩
  · rintro ⟨hget, hreported, hselected⟩
    have hvout : c.vout < 4294967296 := (List.getElem?_eq_some_iff.mp hget).1.trans_le hlength
    exact ⟨(c.script, c.vout), mem_zipIdx_iff_getElem?.mpr hget,
      (reportOutput_eq_some hvout).mpr ⟨hreported, rfl, rfl, hselected⟩⟩

theorem pairwise_reports : (reports outputs).Pairwise fun c d => c.vout < d.vout := by
  have hindices : outputs.zipIdx.Pairwise fun o o' => o.2 < o'.2 := by
    rw [← pairwise_map (f := Prod.snd), zipIdx_map_snd]
    exact pairwise_lt_range'
  have hbound : ∀ o ∈ outputs.zipIdx, o.2 < 4294967296 := fun o ho =>
    (List.getElem?_eq_some_iff.mp (List.mem_zipIdx_iff_getElem?.mp ho)).1.trans_le hlength
  refine pairwise_filterMap.mpr (hindices.imp_of_mem fun {o o'} ho ho' hlt c hc d hd => ?_)
  rw [((reportOutput_eq_some (hbound o ho)).mp hc).2.2.1,
    ((reportOutput_eq_some (hbound o' ho')).mp hd).2.2.1]
  exact hlt

theorem not_marked : ∀ c ∈ reports outputs, c.upstreamSelected ≠ some true := by
  intro c hc
  rw [((mem_reports hlength).mp hc).2.2]
  split <;> simp

/-- The outputs after the first that Core DAO's parser reads can be marked. -/
theorem selectable_iff {vout : ℕ} : (∃ c ∈ reports outputs, c.vout = vout ∧ Selectable c) ↔
    1 ≤ vout ∧ ∃ script, outputs[vout]? = some script ∧ UpstreamReads script := by
  constructor
  · rintro ⟨c, hc, rfl, -, hvout, hreads⟩
    obtain ⟨hget, hreported, -⟩ := (mem_reports hlength).mp hc
    have hreturn : c.script.head? = some opReturn := (isSome_reported.mp (hreported ▸ rfl)).1
    exact ⟨hvout, c.script, hget, (coreDaoReads_eq_true hreturn).mp hreads⟩
  · rintro ⟨hvout, script, hget, hreads⟩
    obtain ⟨status, hcore⟩ := reported_of_upstreamReads hreads
    have hreturn : script.head? = some opReturn := (isSome_reported.mp (hcore ▸ rfl)).1
    exact ⟨⟨vout, .core, script, status, some false⟩, (mem_reports hlength).mpr ⟨hget, hcore, rfl⟩,
      rfl, rfl, hvout, (coreDaoReads_eq_true hreturn).mpr hreads⟩

end Outputs

/-- The first output, after the first, that Core DAO's parser reads. -/
def FirstUpstream (outputs : List Bytes) (vout : ℕ) : Prop :=
  1 ≤ vout ∧ (∃ script, outputs[vout]? = some script ∧ UpstreamReads script) ∧
    ∀ earlier, 1 ≤ earlier → earlier < vout → ∀ script, outputs[earlier]? = some script →
      ¬ UpstreamReads script

theorem UpstreamReads.recognized (h : UpstreamReads script) : Recognized script := by
  obtain ⟨status, hreported⟩ := reported_of_upstreamReads h
  exact isSome_reported.mp (hreported ▸ rfl)

theorem firstUpstream_iff {outputs : List Bytes} (hlength : outputs.length ≤ 4294967296) (vout : ℕ) :
    ((∃ c ∈ reports outputs, c.vout = vout ∧ Selectable c) ∧
      ∀ d ∈ reports outputs, d.vout < vout → ¬ Selectable d) ↔ FirstUpstream outputs vout := by
  rw [selectable_iff hlength, FirstUpstream, and_assoc]
  refine and_congr_right fun _ => and_congr_right fun _ => ⟨fun h earlier hone hlt script hget hreads => ?_,
    fun h d hd hlt hselectable => ?_⟩
  · obtain ⟨d, hd, rfl, hselectable⟩ := (selectable_iff hlength).mpr ⟨hone, script, hget, hreads⟩
    exact h d hd hlt hselectable
  · obtain ⟨hone, script, hget, hreads⟩ := (selectable_iff hlength).mp ⟨d, hd, rfl, hselectable⟩
    exact h d.vout hone hlt script hget hreads

/-- **Protocol commitments are decoded exactly.**  No slice is out of bounds; the outputs with a magic
in their first push are reported, in their order; the valid ones are the encodings of their payloads;
and the output that is marked is the one that Core DAO's parser reads. -/
theorem commitments_exact (outputs : List Bytes) (hlength : outputs.length ≤ 4294967296) :
    ∃ commitments, decodeProtocolCommitments outputs = some commitments ∧
      (commitments.map (·.vout)).Pairwise (· < ·) ∧
      (∀ vout script, (∃ c ∈ commitments, c.vout = vout ∧ c.script = script) ↔
        outputs[vout]? = some script ∧ Recognized script) ∧
      (∀ vout script payload, outputs[vout]? = some script →
        ((∃ c ∈ commitments, c.vout = vout ∧ c.status = .valid payload) ↔
          payload.WellFormed ∧ script = payload.encode)) ∧
      (∀ c ∈ commitments, ∀ d ∈ commitments, ∀ payload, c.status = .valid payload →
        d.status = .valid payload →
        c.script = d.script) ∧
      ∀ vout, (∃ c ∈ commitments, c.vout = vout ∧ c.upstreamSelected = some true) ↔
        FirstUpstream outputs vout := by
  obtain ⟨commitments, hmark, hsame, hmarks⟩ :=
    markSelected_marks (not_marked hlength) (pairwise_reports hlength)
  have hmem : ∀ vout protocol script status,
      (∃ c ∈ commitments, unmarked c = (vout, protocol, script, status)) ↔
      outputs[vout]? = some script ∧ reported script = some (protocol, status) := by
    intro vout protocol script status
    have hiff := (List.mem_map (f := unmarked) (b := (vout, protocol, script, status))
        (l := commitments)).symm
    rw [hiff, hsame, List.mem_map]
    constructor
    · rintro ⟨c, hc, heq⟩
      obtain ⟨rfl, rfl, rfl, rfl⟩ : c.vout = vout ∧ c.protocol = protocol ∧ c.script = script ∧
        c.status = status := by
        simpa [unmarked] using heq
      exact ⟨((mem_reports hlength).mp hc).1, ((mem_reports hlength).mp hc).2.1⟩
    · rintro ⟨hget, hreported⟩
      exact ⟨⟨vout, protocol, script, status, if protocol = .core then some false else none⟩,
        (mem_reports hlength).mpr ⟨hget, hreported, rfl⟩, rfl⟩
  have hcommitment : ∀ c ∈ commitments, outputs[c.vout]? = some c.script ∧
      reported c.script = some (c.protocol, c.status) := fun c hc => (hmem _ _ _ _).mp ⟨c, hc, rfl⟩
  refine ⟨commitments, by rw [decodeProtocolCommitments_eq, hmark], ?_, fun vout script => ⟨?_, ?_⟩,
    fun vout script payload hget => ⟨?_, ?_⟩, fun c hc d hd payload hvalid hvalid' => ?_, fun vout => ?_⟩
  · have hvouts : commitments.map (·.vout) = (reports outputs).map (·.vout) := by
      have := congrArg (List.map Prod.fst) hsame
      rwa [List.map_map, List.map_map] at this
    rw [hvouts]
    exact pairwise_map.mpr (pairwise_reports hlength)
  · rintro ⟨c, hc, rfl, rfl⟩
    obtain ⟨hget, hreported⟩ := hcommitment c hc
    exact ⟨hget, isSome_reported.mp (hreported ▸ rfl)⟩
  · rintro ⟨hget, hrecognized⟩
    obtain ⟨⟨protocol, status⟩, hreported⟩ := isSome_iff_exists.mp (isSome_reported.mpr hrecognized)
    obtain ⟨c, hc, heq⟩ := (hmem vout protocol script status).mpr ⟨hget, hreported⟩
    exact ⟨c, hc, congrArg Prod.fst heq, congrArg (·.2.2.1) heq⟩
  · rintro ⟨c, hc, rfl, hvalid⟩
    obtain ⟨hget', hreported⟩ := hcommitment c hc
    obtain rfl := some.inj (hget.symm.trans hget')
    exact reported_valid_iff.mp ⟨c.protocol, hvalid ▸ hreported⟩
  · intro hencoded
    obtain ⟨protocol, hreported⟩ := reported_valid_iff.mpr hencoded
    obtain ⟨c, hc, heq⟩ := (hmem vout protocol script (.valid payload)).mpr ⟨hget, hreported⟩
    exact ⟨c, hc, congrArg Prod.fst heq, congrArg (·.2.2.2) heq⟩
  · have hencode : ∀ e ∈ commitments, e.status = .valid payload → e.script = payload.encode := by
      intro e he hstatus
      exact (reported_valid_iff.mp ⟨e.protocol, hstatus ▸ (hcommitment e he).2⟩).2
    rw [hencode c hc hvalid, hencode d hd hvalid']
  · rw [hmarks, firstUpstream_iff hlength]

namespace Sample

/-- A CORE declaration. -/
def coreScript : Bytes := coreHeader ++ List.replicate 40 7

/-- A payment to a script hash that begins with the letters CORE. -/
def scriptHash : Bytes := 0xa9 :: 0x14 :: (coreMagic ++ List.replicate 16 0 ++ [0x87])

end Sample

theorem commitments_exact_pair :
    ∃ commitments, decodeProtocolCommitments [[], Sample.coreScript] = some commitments ∧
      ∃ c ∈ commitments, c.vout = 1 ∧ c.upstreamSelected = some true := by
  obtain ⟨commitments, hdecode, -, -, -, -, hselected⟩ :=
    commitments_exact [[], Sample.coreScript] (by decide)
  refine ⟨commitments, hdecode, (hselected 1).mpr ⟨le_rfl, ⟨_, rfl, by decide, rfl, rfl, rfl⟩, ?_⟩⟩
  intro earlier hone hlt
  omega

/-- A magic at byte 2 is not reported without `OP_RETURN`, and an output whose index is no `u32` is not
reported at all. -/
theorem commitments_unreported :
    (OccursAt coreMagic Sample.scriptHash 2 ∧ recognize Sample.scriptHash = some (.core, 6) ∧
        decodeProtocolCommitments [Sample.scriptHash] = some []) ∧
      (List.replicate 4294967296 ([] : Bytes) ++ [Sample.coreScript])[4294967296]? =
        some Sample.coreScript ∧
      Recognized Sample.coreScript ∧
      decodeProtocolCommitments (List.replicate 4294967296 [] ++ [Sample.coreScript]) = some [] := by
  have hreads : UpstreamReads Sample.coreScript := ⟨by decide, rfl, rfl, rfl⟩
  refine ⟨⟨List.isPrefixOf_iff_prefix.mp rfl, rfl, rfl⟩, ?_, hreads.recognized, ?_⟩
  · rw [getElem?_append_right (by rw [length_replicate]), length_replicate]
    rfl
  · have hnone : ∀ o ∈ (List.replicate 4294967296 ([] : Bytes) ++ [Sample.coreScript]).zipIdx,
        reportOutput o = none := by
      rintro ⟨script, vout⟩ ho
      have hget := mem_zipIdx_iff_getElem?.mp ho
      rcases lt_or_ge vout 4294967296 with hlt | hge
      · rw [getElem?_append_left (by rwa [length_replicate]), getElem?_replicate, if_pos hlt] at hget
        obtain rfl := some.inj hget
        rfl
      · rw [reportOutput]
        cases reported script with
        | none => rfl
        | some found => exact if_neg (Nat.not_lt.mpr hge)
    rw [decodeProtocolCommitments_eq, reports, filterMap_eq_nil_iff.mpr hnone]
    rfl

end MergeMiningMonitor.Protocol
