import Mathlib.Data.List.Lex
import Mathlib.Order.Lex
import MergeMiningMonitor.AuxPow.Commitment
import MergeMiningMonitor.Support.FixedWidth

/-!
# Navigator — Cursor

The cursor of a navigator item (`NavigatorCursor`): which target it belongs to, where the item stands on
the target's axis, and its hash.  A client gets it as text and sends it back to ask for the page next to
the item.

The text is hexadecimal JSON.  The two text formats are a parameter (`CursorText`); what is modelled is
the record that they carry, which leaves out a tiebreak of zero, and the checks of `decode`.  A cursor
that is encoded and then decoded is the same cursor if its bounds pass these checks
(`decode_encode`).  They ask for bounds that are not negative.

Hashes are shown in hexadecimal and in reversed byte order.  Shown hashes can be read back
(`storedHashFromDisplay_displayHash`).
-/

namespace MergeMiningMonitor

open AuxPow (Bytes Hash32)
open Fallible FixedWidth List Option

/-! ### Hashes -/

/-- Hashes are compared byte by byte, as PostgreSQL and Rust do. -/
instance : LinearOrder Hash32 :=
  LinearOrder.lift' (fun h => h.bytes.map UInt8.toNat) fun _ _ h =>
    Hash32.ext (map_injective_iff.mpr (fun _ _ => UInt8.toNat_inj.mp) h)

namespace Navigator

/-- A hexadecimal digit. -/
def hexDigit (n : ℕ) : Char := "0123456789abcdef".toList.getD n '0'

/-- The value of a hexadecimal digit of either case. -/
def hexValue (c : Char) : Option ℕ :=
  if c ∈ "0123456789".toList then some (c.toNat - 48)
  else if c ∈ "abcdef".toList then some (c.toNat - 87)
  else if c ∈ "ABCDEF".toList then some (c.toNat - 55)
  else none

/-- The two digits of a byte. -/
def hexByte (b : UInt8) : List Char := [hexDigit (b.toNat / 16), hexDigit (b.toNat % 16)]

/-- The bytes of an even number of digits. -/
def hexDecode : List Char → Option Bytes
  | [] => some []
  | high :: low :: rest => do
    let h ← hexValue high
    let l ← hexValue low
    let bytes ← hexDecode rest
    return UInt8.ofNat (16 * h + l) :: bytes
  | [_] => none

def displayHash (h : Hash32) : String := String.ofList (h.bytes.reverse.flatMap hexByte)

def storedHashFromDisplay (text : String) : Option Hash32 :=
  (hexDecode text.toList).bind fun bytes =>
    if h : bytes.reverse.length = 32 then some ⟨bytes.reverse, h⟩ else none

/-- `lowercase_hex_64` -/
def lowercaseHex64 (raw : String) : Option String :=
  if raw.toList.length = 64 ∧ raw.toList.all fun c => (hexValue c).isSome then
    some (String.ofList (raw.toList.map Char.toLower)) else none

theorem hexValue_hexDigit : ∀ n < 16, hexValue (hexDigit n) = some n := by decide

theorem hexDecode_flatMap (bytes : Bytes) : hexDecode (bytes.flatMap hexByte) = some bytes := by
  induction bytes with
  | nil => rfl
  | cons b bytes ih =>
    have hb : b.toNat < 256 := b.toNat_lt
    have hbyte : UInt8.ofNat (16 * (b.toNat / 16) + b.toNat % 16) = b := by
      rw [Nat.div_add_mod]
      exact UInt8.ofNat_toNat
    simp only [flatMap_cons, hexByte, cons_append, nil_append, hexDecode,
      hexValue_hexDigit _ (show b.toNat / 16 < 16 by omega),
      hexValue_hexDigit _ (show b.toNat % 16 < 16 by omega), ih, bind_eq_bind,
      bind_some, hbyte]
    rfl

theorem storedHashFromDisplay_displayHash (h : Hash32) :
    storedHashFromDisplay (displayHash h) = some h := by
  have hsize : h.bytes.reverse.reverse.length = 32 := by rw [reverse_reverse, h.size]
  rw [storedHashFromDisplay, displayHash, String.toList_ofList, hexDecode_flatMap, bind_some,
    dif_pos hsize]
  exact congrArg some (Hash32.ext (reverse_reverse h.bytes))

theorem toLower_hexDigit : ∀ n < 16, (hexDigit n).toLower = hexDigit n := by decide

theorem lowercaseHex64_displayHash (h : Hash32) :
    lowercaseHex64 (displayHash h) = some (displayHash h) := by
  have hlength : (h.bytes.reverse.flatMap hexByte).length = 64 := by
    have heach : ∀ bytes : Bytes, (bytes.flatMap hexByte).length = 2 * bytes.length := by
      intro bytes
      induction bytes with
      | nil => rfl
      | cons b bytes ih =>
        rw [flatMap_cons, length_append, ih, length_cons]
        simp only [hexByte, length_cons, length_nil]
        omega
    rw [heach, length_reverse, h.size]
  have hdigits : ∀ c ∈ h.bytes.reverse.flatMap hexByte, ∃ n < 16, c = hexDigit n := by
    intro c hc
    obtain ⟨b, -, hc⟩ := mem_flatMap.mp hc
    have hb : b.toNat < 256 := b.toNat_lt
    rcases mem_pair.mp hc with rfl | rfl
    · exact ⟨b.toNat / 16, by omega, rfl⟩
    · exact ⟨b.toNat % 16, by omega, rfl⟩
  have hvalues : ∀ c ∈ h.bytes.reverse.flatMap hexByte, (hexValue c).isSome := by
    intro c hc
    obtain ⟨n, hn, rfl⟩ := hdigits c hc
    rw [hexValue_hexDigit n hn]
    rfl
  have hlower : (h.bytes.reverse.flatMap hexByte).map Char.toLower =
      h.bytes.reverse.flatMap hexByte := by
    refine (map_congr_left fun c hc => ?_).trans (map_id _)
    obtain ⟨n, hn, rfl⟩ := hdigits c hc
    exact toLower_hexDigit n hn
  rw [lowercaseHex64, displayHash, String.toList_ofList, if_pos ⟨hlength, all_eq_true.mpr hvalues⟩, hlower]

/-! ### Targets -/

inductive NavigatorTarget
  | stale
  | staleBranch
  | invalidBlock
  | orphan
  | orphanBranch
  | mixedSignal
deriving DecidableEq

inductive NavigatorAxis
  | height
  | time
deriving DecidableEq

namespace NavigatorTarget

/-- `as_str`, which is also the kebab-case name in JSON. -/
def asStr : NavigatorTarget → String
  | stale => "stale"
  | staleBranch => "stale-branch"
  | invalidBlock => "invalid-block"
  | orphan => "orphan"
  | orphanBranch => "orphan-branch"
  | mixedSignal => "mixed-signal"

/-- `NavigatorTarget::parse`, without the error. -/
def parse (raw : String) : Option NavigatorTarget :=
  [stale, staleBranch, invalidBlock, orphan, orphanBranch, mixedSignal].find? (·.asStr = raw)

def axis : NavigatorTarget → NavigatorAxis
  | stale | staleBranch | invalidBlock | mixedSignal => .height
  | orphan | orphanBranch => .time

theorem parse_asStr (target : NavigatorTarget) : parse target.asStr = some target := by
  cases target <;> decide

end NavigatorTarget

namespace NavigatorAxis

/-- The lowercase name in JSON. -/
def asStr : NavigatorAxis → String
  | height => "height"
  | time => "time"

def parse (raw : String) : Option NavigatorAxis := [height, time].find? (·.asStr = raw)

theorem parse_asStr (axis : NavigatorAxis) : parse axis.asStr = some axis := by
  cases axis <;> decide

end NavigatorAxis

/-! ### Cursors -/

structure NavigatorCursor where
  target : NavigatorTarget
  axis : NavigatorAxis
  min : ℤ
  max : ℤ
  hash : String
  tiebreak : ℤ
deriving DecidableEq

/-- The JSON record of a cursor. -/
structure CursorFields where
  target : String
  axis : String
  min : ℤ
  max : ℤ
  hash : String
  tiebreak : Option ℤ
deriving DecidableEq

/-- The numbers of the record fit the columns that they are read into. -/
def CursorFields.InRange (f : CursorFields) : Prop :=
  InI64 f.min ∧ InI64 f.max ∧ ∀ t ∈ f.tiebreak, InI64 t

/-- Hexadecimal JSON, which reads back what it wrote. -/
structure CursorText (Text : Type) where
  encode : CursorFields → Text
  decode : Text → Option CursorFields
  decode_encode : ∀ f, f.InRange → decode (encode f) = some f

/-- `ApiError::invalid_query` -/
structure ApiError where
  message : String
deriving DecidableEq

namespace NavigatorCursor

/-- Serialization, with a tiebreak of zero left out. -/
def toFields (c : NavigatorCursor) : CursorFields :=
  ⟨c.target.asStr, c.axis.asStr, c.min, c.max, c.hash, if c.tiebreak = 0 then none else some c.tiebreak⟩

/-- Deserialization, with zero for a tiebreak that is left out. -/
def ofFields (f : CursorFields) : Option NavigatorCursor := do
  let target ← NavigatorTarget.parse f.target
  let axis ← NavigatorAxis.parse f.axis
  return ⟨target, axis, f.min, f.max, f.hash, f.tiebreak.getD 0⟩

theorem ofFields_toFields (c : NavigatorCursor) : ofFields c.toFields = some c := by
  have htiebreak : (if c.tiebreak = 0 then none else some c.tiebreak).getD 0 = c.tiebreak := by
    split
    · next h => exact h.symm
    · rfl
  simp only [ofFields, toFields, NavigatorTarget.parse_asStr, NavigatorAxis.parse_asStr, htiebreak]
  rfl

variable {Text : Type} (text : CursorText Text)

def encode (c : NavigatorCursor) : Text := text.encode c.toFields

def decode (raw : Text) (target : NavigatorTarget) : Except ApiError NavigatorCursor := do
  let cursor ← required ((text.decode raw).bind ofFields) ⟨"cursor is malformed"⟩
  ensure (cursor.target = target) ⟨"cursor target does not match request target"⟩
  ensure (cursor.axis = target.axis) ⟨"cursor axis does not match request target"⟩
  ensure (¬ (cursor.min < 0 ∨ cursor.max < 0 ∨ cursor.min > cursor.max)) ⟨"cursor bounds are invalid"⟩
  ensure (¬ (cursor.axis = .height ∧ (¬ InI32 cursor.min ∨ ¬ InI32 cursor.max)))
    ⟨"height cursor bounds are out of range"⟩
  ensure ((lowercaseHex64 cursor.hash).isSome) ⟨"cursor.hash must be a 64-character hex hash"⟩
  return cursor

/-- The bounds of a cursor that the server can read back. -/
structure Readable (c : NavigatorCursor) : Prop where
  axis : c.axis = c.target.axis
  min_nonneg : 0 ≤ c.min
  min_le_max : c.min ≤ c.max
  min_range : InI64 c.min
  max_range : InI64 c.max
  tiebreak_range : InI64 c.tiebreak
  height_range : c.axis = .height → InI32 c.max
  hash : (lowercaseHex64 c.hash).isSome

/-- **A cursor decodes to itself.** -/
theorem decode_encode {c : NavigatorCursor} (h : c.Readable) :
    decode text (c.encode text) c.target = .ok c := by
  have hrange : c.toFields.InRange := by
    refine ⟨h.min_range, h.max_range, fun t ht => ?_⟩
    have htiebreak : (if c.tiebreak = 0 then none else some c.tiebreak) = some t := ht
    split at htiebreak
    · cases htiebreak
    · exact some.inj htiebreak ▸ h.tiebreak_range
  have hread : (text.decode (c.encode text)).bind ofFields = some c := by
    rw [encode, text.decode_encode _ hrange, bind_some, ofFields_toFields]
  have hbounds : ¬ (c.min < 0 ∨ c.max < 0 ∨ c.min > c.max) := by
    have := h.min_nonneg
    have := h.min_le_max
    omega
  have hheight : ¬ (c.axis = .height ∧ (¬ InI32 c.min ∨ ¬ InI32 c.max)) := by
    rintro ⟨haxis, hout⟩
    have hmax := h.height_range haxis
    have hmin : InI32 c.min := by
      have := h.min_nonneg
      have := h.min_le_max
      rw [InI32] at hmax ⊢
      omega
    exact hout.elim (· hmin) (· hmax)
  refine bind_eq_ok.mpr ⟨c, required_eq_ok.mpr hread, ?_⟩
  refine bind_eq_ok.mpr ⟨(), ensure_eq_ok.mpr rfl, ?_⟩
  refine bind_eq_ok.mpr ⟨(), ensure_eq_ok.mpr h.axis, ?_⟩
  refine bind_eq_ok.mpr ⟨(), ensure_eq_ok.mpr hbounds, ?_⟩
  refine bind_eq_ok.mpr ⟨(), ensure_eq_ok.mpr hheight, ?_⟩
  exact bind_eq_ok.mpr ⟨(), ensure_eq_ok.mpr h.hash, rfl⟩

end NavigatorCursor

end Navigator

end MergeMiningMonitor
