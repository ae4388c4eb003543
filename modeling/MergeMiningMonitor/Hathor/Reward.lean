import MergeMiningMonitor.AuxPow.Commitment
import MergeMiningMonitor.Support.CompactSize

/-!
# Hathor — Reward

The outputs of a Hathor block (`reward.rs`), read from the funds that stand before its graph.  A value
is written in four bytes, or negated in eight; the top bit of the first byte tells which.  Outputs
follow one another without a length of the whole, and the funds must end with the last of them.

`Funds` are the well-formed funds.  The reader accepts exactly their encodings (`read_funds`).  So an
encoding parses to its outputs, no other split of the same bytes parses, and whatever parses is an
encoding of what it returns (`rewards_parsed_exactly`).
-/

namespace MergeMiningMonitor.Hathor

open AuxPow (Bytes)
open Readers Slices CompactSize List

inductive RewardError
  | splitNegative
  | splitExceedsLength (split length : Nat)
  | fundsTooShort
  | truncatedValue
  | valueNotNegative
  | valueOverflows
  | truncatedFunds
  | trailingBytes (count : Nat)
deriving DecidableEq

abbrev RewardCursor := Reader UInt8 RewardError

inductive ScriptType
  | p2pkh | p2sh | nonstandard
deriving DecidableEq

inductive SkippedReason
  | authorityOutput | nonHtrToken | nonstandardScript
deriving DecidableEq

structure DecodedScript where
  scriptType : ScriptType
  address : Option String
  timelock : Option Nat
deriving DecidableEq

structure HathorRewardOutput where
  index : Nat
  value : Int
  tokenData : UInt8
  authority : Bool
  tokenIndex : UInt8
  script : Bytes
  scriptType : ScriptType
  address : Option String
  timelock : Option Nat
  skippedReason : Option SkippedReason
deriving DecidableEq

structure HathorRewardParse where
  version : Nat
  outputs : List HathorRewardOutput
  graphLen : Nat
  fundsLen : Nat
deriving DecidableEq

def stripTimelock (script : Bytes) : Bytes × Option Nat :=
  if 6 ≤ script.length ∧ script[0]? = some 0x04 ∧ script[5]? = some 0x6f then
    (script.drop 6, some (ofBeBytes ((script.drop 1).take 4)))
  else if 7 ≤ script.length ∧ script[0]? = some 0x4c ∧ script[1]? = some 0x04 ∧
      script[6]? = some 0x6f then
    (script.drop 7, some (ofBeBytes ((script.drop 2).take 4)))
  else (script, none)

section
variable (base58 : Bytes → String)

def decodeHathorScript (script : Bytes) : DecodedScript :=
  let (script, timelock) := stripTimelock script
  if script.length = 25 ∧ script.take 3 = [0x76, 0xa9, 0x14] ∧ script.drop 23 = [0x88, 0xac] then
    ⟨.p2pkh, some (base58 (0x28 :: (script.drop 3).take 20)), timelock⟩
  else if script.length = 23 ∧ script.take 2 = [0xa9, 0x14] ∧ script.drop 22 = [0x87] then
    ⟨.p2sh, some (base58 (0x64 :: (script.drop 2).take 20)), timelock⟩
  else ⟨.nonstandard, none, timelock⟩

/-- The output that `parse_output` makes of what it read. -/
def rewardOutput (index : Nat) (value : Int) (tokenData : UInt8) (script : Bytes) : HathorRewardOutput :=
  let decoded := decodeHathorScript base58 script
  let authority := tokenData &&& 0x80 ≠ 0
  let tokenIndex := tokenData &&& 0x7f
  { index, value, tokenData, authority, tokenIndex, script
    scriptType := decoded.scriptType
    address := decoded.address
    timelock := decoded.timelock
    skippedReason :=
      if authority then some .authorityOutput
      else if tokenIndex ≠ 0 then some .nonHtrToken
      else if decoded.address.isNone then some .nonstandardScript
      else none }

/-- The bytes of an `i64`. -/
def i64OfBits (n : Nat) : Int := if n < 2 ^ 63 then n else n - 2 ^ 64

def readNegated : RewardCursor Int := do
  let bits ← be 8 .truncatedFunds
  check (i64OfBits bits < 0) .valueNotNegative
  check (i64OfBits bits ≠ -2 ^ 63) .valueOverflows
  return -i64OfBits bits

def readNarrow : RewardCursor Int := do
  let value ← be 4 .truncatedFunds
  return value

def readOutputValue : RewardCursor Int
  | [] => .error .truncatedValue
  | first :: rest =>
    if first &&& 0x80 = 0 then readNarrow (first :: rest) else readNegated (first :: rest)

def parseOutput (index : Nat) : RewardCursor HathorRewardOutput := do
  let value ← readOutputValue
  let tokenData ← byte .truncatedFunds
  let scriptLen ← be 2 .truncatedFunds
  let script ← takeExact scriptLen .truncatedFunds
  return rewardOutput base58 index value tokenData script.1

/-- The loop over the outputs, from an index on. -/
def parseOutputs (index : Nat) : Nat → RewardCursor (List HathorRewardOutput)
  | 0 => pure []
  | count + 1 => do
    let output ← parseOutput base58 index
    let outputs ← parseOutputs (index + 1) count
    return output :: outputs

def readFunds : RewardCursor (Nat × List HathorRewardOutput) := do
  let version ← be 2 .truncatedFunds
  let outputCount ← byte .truncatedFunds
  let outputs ← parseOutputs base58 0 outputCount.toNat
  return (version, outputs)

def parseHathorRewardOutputs (fundsGraph : Bytes) (fundsGraphSplit : Int) :
    Except RewardError HathorRewardParse := do
  Fallible.ensure (0 ≤ fundsGraphSplit) .splitNegative
  let split := fundsGraphSplit.toNat
  Fallible.ensure (split ≤ fundsGraph.length) (.splitExceedsLength split fundsGraph.length)
  let funds := fundsGraph.take split
  Fallible.ensure (3 ≤ funds.length) .fundsTooShort
  let ((version, outputs), rest) ← readFunds base58 funds
  Fallible.ensure (rest.length = 0) (.trailingBytes rest.length)
  return { version, outputs, graphLen := fundsGraph.length - split, fundsLen := split }

end

/-! ### Well-formed funds -/

/-- A value in one of its two forms. -/
structure OutputValue where
  value : Nat
  negated : Bool
  valid : if negated then 0 < value ∧ value < 2 ^ 63 else value < 2 ^ 31

def OutputValue.encode (v : OutputValue) : Bytes :=
  if v.negated then toBeBytes 8 (2 ^ 64 - v.value) else toBeBytes 4 v.value

/-- An output, as the funds hold it. -/
structure FundsOutput extends OutputValue where
  tokenData : UInt8
  script : Bytes
  script_length : script.length < 256 ^ 2

def FundsOutput.encode (o : FundsOutput) : Bytes :=
  o.toOutputValue.encode ++ (o.tokenData :: (toBeBytes 2 o.script.length ++ o.script))

structure Funds where
  version : Nat
  outputs : List FundsOutput
  version_lt : version < 256 ^ 2
  count : outputs.length < 256

def Funds.encode (f : Funds) : Bytes :=
  toBeBytes 2 f.version ++ (UInt8.ofNat f.outputs.length :: f.outputs.flatMap FundsOutput.encode)

/-- The parse has the version, and of each output its position, value, token byte and script. -/
def Funds.ParsedAs (f : Funds) (r : HathorRewardParse) : Prop :=
  r.version = f.version ∧ r.outputs.map (fun o => (o.index, o.value, o.tokenData, o.script)) =
    f.outputs.zipIdx.map fun o => (o.2, (o.1.value : Int), o.1.tokenData, o.1.script)

/-- What the reader makes of outputs, from an index on. -/
def rewards (base58 : Bytes → String) (index : Nat) (outputs : List FundsOutput) :
    List HathorRewardOutput :=
  (outputs.zipIdx index).map fun o => rewardOutput base58 o.2 o.1.value o.1.tokenData o.1.script

/-! ### The reader accepts exactly the encodings -/

variable {input rest : Bytes}

theorem highBit_clear_iff (b : UInt8) : b &&& 0x80 = 0 ↔ b.toNat < 128 := by
  have hall : ∀ n : Fin 256, n.val &&& 128 = 0 ↔ n.val < 128 := by decide +kernel
  rw [← UInt8.toNat_inj, UInt8.toNat_and]
  exact hall ⟨b.toNat, b.toNat_lt⟩

/-- The top bit of the first byte is that of the number. -/
theorem lt_iff_first {k n : Nat} (hn : n < 256 ^ (k + 1)) :
    (UInt8.ofNat (n / 256 ^ k)) &&& 0x80 = 0 ↔ n < 128 * 256 ^ k := by
  have hfirst : n / 256 ^ k < 256 := Nat.div_lt_of_lt_mul (by rwa [Nat.pow_succ] at hn)
  rw [highBit_clear_iff, UInt8.toNat_ofNat_of_lt' hfirst, Nat.div_lt_iff_lt_mul (Nat.pow_pos (by decide))]

theorem read_narrow {value : Int} :
    readNarrow input = .ok (value, rest) ↔
      ∃ n : Nat, n < 256 ^ 4 ∧ value = n ∧ input = toBeBytes 4 n ++ rest := by
  refine read_bind.trans ⟨?_, ?_⟩
  · rintro ⟨n, mid, hbits, hread⟩
    obtain ⟨rfl, rfl⟩ := read_pure.mp hread
    obtain ⟨hn, rfl⟩ := read_be.mp hbits
    exact ⟨n, hn, rfl, rfl⟩
  · rintro ⟨n, hn, rfl, rfl⟩
    exact ⟨n, rest, read_be.mpr ⟨hn, rfl⟩, rfl⟩

theorem read_negated {value : Int} :
    readNegated input = .ok (value, rest) ↔
      ∃ n : Nat, n < 256 ^ 8 ∧ 2 ^ 63 < n ∧ value = 2 ^ 64 - n ∧ input = toBeBytes 8 n ++ rest := by
  refine read_bind.trans ⟨?_, ?_⟩
  · rintro ⟨n, mid, hbits, hread⟩
    obtain ⟨_, mid, hneg, hread⟩ := read_bind.mp hread
    obtain ⟨_, mid, hover, hread⟩ := read_bind.mp hread
    obtain ⟨hneg, rfl⟩ := read_check.mp hneg
    obtain ⟨hover, rfl⟩ := read_check.mp hover
    obtain ⟨rfl, rfl⟩ := read_pure.mp hread
    obtain ⟨hn, rfl⟩ := read_be.mp hbits
    unfold i64OfBits at *
    split_ifs at * with hsmall
    · omega
    · exact ⟨n, hn, by omega, by omega, rfl⟩
  · rintro ⟨n, hn, hlarge, rfl, rfl⟩
    have hbits : i64OfBits n = n - 2 ^ 64 := if_neg (by omega)
    refine ⟨n, rest, read_be.mpr ⟨hn, rfl⟩, read_bind.mpr ⟨(), rest, read_check.mpr ⟨?_, rfl⟩,
      read_bind.mpr ⟨(), rest, read_check.mpr ⟨?_, rfl⟩, read_pure.mpr ⟨?_, rfl⟩⟩⟩⟩
    all_goals rw [hbits]; omega

theorem read_value {value : Int} :
    readOutputValue input = .ok (value, rest) ↔
      ∃ v : OutputValue, value = v.value ∧ input = v.encode ++ rest := by
  constructor
  · intro hread
    cases input with
    | nil => cases hread
    | cons first tail =>
      rw [readOutputValue] at hread
      split at hread
      · next hclear =>
          obtain ⟨n, hn, rfl, hinput⟩ := read_narrow.mp hread
          rw [(List.cons.inj hinput).1, lt_iff_first hn] at hclear
          exact ⟨⟨n, false, hclear⟩, rfl, hinput⟩
      · obtain ⟨n, hn, hlarge, rfl, hinput⟩ := read_negated.mp hread
        refine ⟨⟨2 ^ 64 - n, true, by constructor <;> omega⟩, by push_cast; omega, ?_⟩
        rw [hinput, OutputValue.encode, if_pos rfl, Nat.sub_sub_self (by omega)]
  · rintro ⟨⟨n, negated, hvalid⟩, rfl, rfl⟩
    change _ = Except.ok ((n : Int), rest)
    cases negated with
    | false =>
      have hn : n < 2 ^ 31 := hvalid
      refine Eq.trans (if_pos ((lt_iff_first (k := 3) (n := n) (by omega)).mpr (by omega))) ?_
      exact read_narrow.mpr ⟨n, by omega, rfl, rfl⟩
    | true =>
      obtain ⟨hpos, hn⟩ : 0 < n ∧ n < 2 ^ 63 := hvalid
      refine Eq.trans (if_neg (mt (lt_iff_first (k := 7) (n := 2 ^ 64 - n) (by omega)).mp (by omega))) ?_
      exact read_negated.mpr ⟨2 ^ 64 - n, by omega, by omega, by push_cast; omega, rfl⟩

section
variable {base58 : Bytes → String}

theorem read_output {index : Nat} {output : HathorRewardOutput} :
    parseOutput base58 index input = .ok (output, rest) ↔
      ∃ o : FundsOutput, output = rewardOutput base58 index o.value o.tokenData o.script ∧
        input = o.encode ++ rest := by
  refine read_bind.trans ⟨?_, ?_⟩
  · rintro ⟨value, mid, hvalue, hread⟩
    obtain ⟨tokenData, mid', htoken, hread⟩ := read_bind.mp hread
    obtain ⟨n, mid'', hlen, hread⟩ := read_bind.mp hread
    obtain ⟨⟨script, rfl⟩, left, hscript, hread⟩ := read_bind.mp hread
    obtain ⟨rfl, rfl⟩ := read_pure.mp hread
    obtain ⟨v, rfl, rfl⟩ := read_value.mp hvalue
    obtain ⟨hn, rfl⟩ := read_be.mp hlen
    refine ⟨{ v with tokenData, script, script_length := hn }, rfl, ?_⟩
    rw [read_byte_iff.mp htoken, read_takeExact.mp hscript, FundsOutput.encode]
    simp only [append_assoc, cons_append]
  · rintro ⟨o, rfl, rfl⟩
    rw [FundsOutput.encode, append_assoc, cons_append, append_assoc]
    exact ⟨_, _, read_value.mpr ⟨_, rfl, rfl⟩, read_bind.mpr ⟨_, _, read_byte _ _,
      read_bind.mpr ⟨_, _, read_be.mpr ⟨o.script_length, rfl⟩,
        read_bind.mpr ⟨⟨o.script, rfl⟩, rest, read_takeExact.mpr rfl, rfl⟩⟩⟩⟩

theorem read_outputs {index count : Nat} {outputs : List HathorRewardOutput} :
    parseOutputs base58 index count input = .ok (outputs, rest) ↔
      ∃ os : List FundsOutput, os.length = count ∧ outputs = rewards base58 index os ∧
        input = os.flatMap FundsOutput.encode ++ rest := by
  induction count generalizing index input outputs with
  | zero =>
    refine read_pure.trans ⟨?_, ?_⟩
    · rintro ⟨rfl, rfl⟩
      exact ⟨[], rfl, rfl, rfl⟩
    · rintro ⟨os, hlength, rfl, rfl⟩
      rw [eq_nil_of_length_eq_zero hlength]
      exact ⟨rfl, rfl⟩
  | succ count ih =>
    refine read_bind.trans ⟨?_, ?_⟩
    · rintro ⟨output, mid, hfirst, hread⟩
      obtain ⟨outputs', mid', hrest, hread⟩ := read_bind.mp hread
      obtain ⟨rfl, rfl⟩ := read_pure.mp hread
      obtain ⟨o, rfl, rfl⟩ := read_output.mp hfirst
      obtain ⟨os, rfl, rfl, rfl⟩ := ih.mp hrest
      exact ⟨o :: os, rfl, rfl, by rw [flatMap_cons, append_assoc]⟩
    · rintro ⟨os, hlength, rfl, rfl⟩
      obtain ⟨o, os, rfl⟩ := exists_cons_of_length_eq_add_one hlength
      rw [flatMap_cons, append_assoc]
      exact ⟨_, _, read_output.mpr ⟨o, rfl, rfl⟩,
        read_bind.mpr ⟨_, _, ih.mpr ⟨os, Nat.succ.inj hlength, rfl, rfl⟩, rfl⟩⟩

/-- **The reader accepts exactly the encodings of well-formed funds.** -/
theorem read_funds {version : Nat} {outputs : List HathorRewardOutput} :
    readFunds base58 input = .ok ((version, outputs), rest) ↔
      ∃ f : Funds, version = f.version ∧ outputs = rewards base58 0 f.outputs ∧
        input = f.encode ++ rest := by
  refine read_bind.trans ⟨?_, ?_⟩
  · rintro ⟨v, mid, hversion, hread⟩
    obtain ⟨count, mid', hcount, hread⟩ := read_bind.mp hread
    obtain ⟨os, mid'', houtputs, hread⟩ := read_bind.mp hread
    obtain ⟨heq, rfl⟩ := read_pure.mp hread
    obtain ⟨rfl, rfl⟩ := Prod.mk.inj heq
    obtain ⟨hv, rfl⟩ := read_be.mp hversion
    obtain ⟨os, hlength, rfl, rfl⟩ := read_outputs.mp houtputs
    have hbyte : UInt8.ofNat os.length = count := by rw [hlength, UInt8.ofNat_toNat]
    refine ⟨⟨v, os, hv, hlength ▸ count.toNat_lt⟩, rfl, rfl, ?_⟩
    rw [read_byte_iff.mp hcount, Funds.encode, append_assoc, cons_append]
    dsimp only
    rw [hbyte]
  · rintro ⟨f, rfl, rfl, rfl⟩
    have hcount : (UInt8.ofNat f.outputs.length).toNat = f.outputs.length :=
      UInt8.toNat_ofNat_of_lt' f.count
    rw [Funds.encode, append_assoc, cons_append]
    exact ⟨_, _, read_be.mpr ⟨f.version_lt, rfl⟩, read_bind.mpr ⟨_, _, read_byte _ _,
      read_bind.mpr ⟨_, rest, read_outputs.mpr ⟨f.outputs, hcount.symm, rfl, rfl⟩, rfl⟩⟩⟩

/-! ### Splits -/

theorem three_le_encode (f : Funds) : 3 ≤ f.encode.length := by
  rw [Funds.encode, length_append, length_toBeBytes, length_cons]
  omega

theorem parse_eq_ok {fundsGraph : Bytes} {split : Int} {r : HathorRewardParse} :
    parseHathorRewardOutputs base58 fundsGraph split = .ok r ↔
      ∃ (f : Funds) (graph : Bytes), split = f.encode.length ∧ fundsGraph = f.encode ++ graph ∧
        r = ⟨f.version, rewards base58 0 f.outputs, graph.length, f.encode.length⟩ := by
  simp only [parseHathorRewardOutputs, Fallible.bind_eq_ok, Fallible.ensure_eq_ok, exists_const]
  constructor
  · rintro ⟨hnonneg, hle, -, ⟨⟨version, outputs⟩, rest⟩, hread, hrest, hr⟩
    obtain ⟨f, rfl, rfl, hfunds⟩ := read_funds.mp hread
    obtain rfl : rest = [] := eq_nil_of_length_eq_zero hrest
    rw [append_nil] at hfunds
    have hsplit : split.toNat = f.encode.length := by
      rw [← hfunds, length_take_of_le hle]
    refine ⟨f, fundsGraph.drop split.toNat, by omega, ?_, ?_⟩
    · rw [← hfunds, take_append_drop]
    · rw [← Except.ok.inj hr, length_drop, hsplit]
  · rintro ⟨f, graph, rfl, rfl, rfl⟩
    rw [Int.toNat_natCast, take_left, length_append, Nat.add_sub_cancel_left]
    exact ⟨Int.natCast_nonneg _, Nat.le_add_right _ _, three_le_encode f, ⟨_, []⟩,
      read_funds.mpr ⟨f, rfl, rfl, (append_nil _).symm⟩, rfl, rfl⟩

/-- Only one cut of a sequence of bytes is an encoding. -/
theorem encode_cut_unique {f f' : Funds} {graph graph' : Bytes}
    (h : f.encode ++ graph = f'.encode ++ graph') : graph = graph' := by
  have hread : readFunds (fun _ => "") (f.encode ++ graph) = .ok (_, graph) :=
    read_funds.mpr ⟨f, rfl, rfl, rfl⟩
  have hread' : readFunds (fun _ => "") (f'.encode ++ graph') = .ok (_, graph') :=
    read_funds.mpr ⟨f', rfl, rfl, rfl⟩
  rw [h, hread'] at hread
  exact (Prod.mk.inj (Except.ok.inj hread)).2.symm

end

theorem parsedAs_rewards (base58 : Bytes → String) (f : Funds) (graphLen fundsLen : Nat) :
    f.ParsedAs ⟨f.version, rewards base58 0 f.outputs, graphLen, fundsLen⟩ := by
  refine ⟨rfl, ?_⟩
  rw [rewards, map_map]
  rfl

/-- **Reward outputs are parsed exactly.**  Funds before any graph parse to their outputs when they are
split off at their end, and at no other split.  Whatever parses is the encoding of funds with the
outputs that are returned, and no value of them is negative. -/
theorem rewards_parsed_exactly (base58 : Bytes → String) :
    (∀ (f : Funds) (graph : Bytes),
      (∃ r, parseHathorRewardOutputs base58 (f.encode ++ graph) f.encode.length = .ok r ∧
        f.ParsedAs r ∧ r.graphLen = graph.length ∧ r.fundsLen = f.encode.length) ∧
        ∀ split : Int, split ≠ f.encode.length →
          ∃ e, parseHathorRewardOutputs base58 (f.encode ++ graph) split = .error e) ∧
      ∀ (fundsGraph : Bytes) (split : Int) (r : HathorRewardParse),
        parseHathorRewardOutputs base58 fundsGraph split = .ok r →
          (∃ f : Funds, fundsGraph.take split.toNat = f.encode ∧ split = f.encode.length ∧
            f.ParsedAs r) ∧
          ∀ output ∈ r.outputs, 0 ≤ output.value := by
  refine ⟨fun f graph => ⟨⟨_, parse_eq_ok.mpr ⟨f, graph, rfl, rfl, rfl⟩, parsedAs_rewards _ f _ _, rfl,
    rfl⟩, fun split hsplit => ?_⟩, ?_⟩
  · cases hparse : parseHathorRewardOutputs base58 (f.encode ++ graph) split with
    | error e => exact ⟨e, rfl⟩
    | ok r =>
      obtain ⟨f', graph', rfl, hcut, -⟩ := parse_eq_ok.mp hparse
      cases encode_cut_unique hcut
      exact absurd (by rw [append_cancel_right hcut]) hsplit
  · intro fundsGraph split r hparse
    obtain ⟨f, graph, rfl, rfl, rfl⟩ := parse_eq_ok.mp hparse
    refine ⟨⟨f, by rw [Int.toNat_natCast, take_left], rfl, parsedAs_rewards _ f _ _⟩, ?_⟩
    rintro output hmem
    obtain ⟨o, -, rfl⟩ := mem_map.mp hmem
    exact Int.natCast_nonneg _

/-- A value of each width. -/
def sampleFunds : Funds where
  version := 3
  outputs := [⟨⟨640, false, by decide⟩, 0, [0x51], by decide⟩,
    ⟨⟨5000000000, true, by decide⟩, 1, [], by decide⟩]
  version_lt := by decide
  count := by decide

/-- The two values are returned with their token bytes and scripts, before a graph of one byte and not
at a split after it. -/
theorem sample_rewards_parsed :
    (∃ r, parseHathorRewardOutputs (fun _ => "") (sampleFunds.encode ++ [9]) 22 = .ok r ∧
      r.outputs.map (fun o => (o.index, o.value, o.tokenData, o.script)) =
        [(0, 640, 0, [0x51]), (1, 5000000000, 1, [])] ∧ ∀ output ∈ r.outputs, 0 ≤ output.value) ∧
    ∃ e, parseHathorRewardOutputs (fun _ => "") (sampleFunds.encode ++ [9]) 23 = .error e := by
  obtain ⟨hexact, haccepted⟩ := rewards_parsed_exactly fun _ => ""
  obtain ⟨⟨r, hr, hparsed, -⟩, hother⟩ := hexact sampleFunds [9]
  have hlength : sampleFunds.encode.length = 22 := by decide +kernel
  rw [hlength] at hr hother
  exact ⟨⟨r, hr, hparsed.2, (haccepted _ _ r hr).2⟩, hother 23 (by decide)⟩

end MergeMiningMonitor.Hathor
