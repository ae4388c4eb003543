import MergeMiningMonitor.Support.Readers
import MergeMiningMonitor.Support.Slices

/-!
# Support — CompactSize

Readers of numbers in bytes: fixed widths, and the variable width whose first byte is
either the number or a marker of the width that follows.  A reader accepts every width that holds the
number, not only the shortest (`Encodes`), and reads the number back (`read_compactSize`).  Writers use
the shortest (`encode`).
-/

namespace CompactSize

open Readers Slices

variable {ε : Type}

def byte (e : ε) : Reader UInt8 ε UInt8 := do
  let bytes ← takeExact 1 e
  return bytes.1.get ⟨0, bytes.2.symm ▸ Nat.one_pos⟩

/-- A number of `k` little-endian bytes. -/
def le (k : Nat) (e : ε) : Reader UInt8 ε Nat := do
  let bytes ← takeExact k e
  return ofLeBytes bytes.1

/-- A number of `k` big-endian bytes. -/
def be (k : Nat) (e : ε) : Reader UInt8 ε Nat := do
  let bytes ← takeExact k e
  return ofBeBytes bytes.1

def compactSize (e : ε) : Reader UInt8 ε Nat := do
  let first ← byte e
  if first = 0xff then le 8 e
  else if first = 0xfe then le 4 e
  else if first = 0xfd then le 2 e
  else return first.toNat

theorem local_byte {e : ε} : Local 1 (byte e) := Local.takeExact.bind fun _ => Local.pure _

theorem local_le {e : ε} (k : Nat) : Local k (le k e) := Local.takeExact.bind fun _ => Local.pure _

theorem local_compactSize {e : ε} : Local 1 (compactSize e) := by
  refine local_byte.bind (n := 0) fun first => ?_
  split_ifs
  · exact (local_le 8).mono (Nat.zero_le _)
  · exact (local_le 4).mono (Nat.zero_le _)
  · exact (local_le 2).mono (Nat.zero_le _)
  · exact Local.pure _

/-- The bytes stand for the number, in one of the widths. -/
inductive Encodes (n : Nat) : List UInt8 → Prop
  | one (h : n < 0xfd) : Encodes n [UInt8.ofNat n]
  | two (h : n < 256 ^ 2) : Encodes n (0xfd :: toLeBytes 2 n)
  | four (h : n < 256 ^ 4) : Encodes n (0xfe :: toLeBytes 4 n)
  | eight (h : n < 256 ^ 8) : Encodes n (0xff :: toLeBytes 8 n)

theorem read_byte {e : ε} (b : UInt8) (rest : List UInt8) : byte e (b :: rest) = .ok (b, rest) :=
  rfl

theorem read_byte_iff {e : ε} {b : UInt8} {input rest : List UInt8} :
    byte e input = .ok (b, rest) ↔ input = b :: rest := by
  cases input with
  | nil => exact iff_of_false nofun nofun
  | cons c tail => rw [read_byte, Except.ok.injEq, Prod.mk.injEq, List.cons.injEq]

theorem read_le {e : ε} {k n : Nat} (h : n < 256 ^ k) (rest : List UInt8) :
    le k e (toLeBytes k n ++ rest) = .ok (n, rest) := by
  refine read_bind.mpr ⟨⟨toLeBytes k n, length_toLeBytes k n⟩, rest, read_takeExact.mpr rfl, ?_⟩
  exact read_pure.mpr ⟨(ofLeBytes_toLeBytes k n).trans (Nat.mod_eq_of_lt h), rfl⟩

theorem read_be {e : ε} {k n : Nat} {input rest : List UInt8} :
    be k e input = .ok (n, rest) ↔ n < 256 ^ k ∧ input = toBeBytes k n ++ rest := by
  refine read_bind.trans ⟨?_, ?_⟩
  · rintro ⟨⟨bytes, rfl⟩, mid, htake, hread⟩
    obtain ⟨rfl, rfl⟩ := read_pure.mp hread
    exact ⟨ofBeBytes_lt bytes, by rw [toBeBytes_ofBeBytes]; exact read_takeExact.mp htake⟩
  · rintro ⟨hn, rfl⟩
    exact ⟨⟨toBeBytes k n, length_toBeBytes k n⟩, rest, read_takeExact.mpr rfl,
      read_pure.mpr ⟨ofBeBytes_toBeBytes hn, rfl⟩⟩

/-- **Every encoding reads back.** -/
theorem read_compactSize {e : ε} {n : Nat} {bytes : List UInt8} (h : Encodes n bytes)
    (rest : List UInt8) : compactSize e (bytes ++ rest) = .ok (n, rest) := by
  cases h with
  | one h =>
    have hbyte : (UInt8.ofNat n).toNat = n := UInt8.toNat_ofNat_of_lt' (Nat.lt_trans h (by decide))
    have hne : ∀ m : UInt8, 0xfd ≤ m.toNat → UInt8.ofNat n ≠ m := by
      rintro m hm rfl
      exact Nat.not_le.mpr h (hbyte ▸ hm)
    refine read_bind.mpr ⟨UInt8.ofNat n, rest, read_byte _ _, ?_⟩
    rw [if_neg (hne _ (by decide)), if_neg (hne _ (by decide)), if_neg (hne _ (by decide))]
    exact read_pure.mpr ⟨hbyte, rfl⟩
  | two h => exact read_bind.mpr ⟨0xfd, _, read_byte _ _, read_le h rest⟩
  | four h => exact read_bind.mpr ⟨0xfe, _, read_byte _ _, read_le h rest⟩
  | eight h => exact read_bind.mpr ⟨0xff, _, read_byte _ _, read_le h rest⟩

/-- The shortest encoding of a number of eight bytes. -/
def encode (n : Nat) : List UInt8 :=
  if n < 0xfd then [UInt8.ofNat n]
  else if n < 256 ^ 2 then 0xfd :: toLeBytes 2 n
  else if n < 256 ^ 4 then 0xfe :: toLeBytes 4 n
  else 0xff :: toLeBytes 8 n

theorem encodes_encode {n : Nat} (h : n < 256 ^ 8) : Encodes n (encode n) := by
  rw [encode]
  split_ifs with hone htwo hfour
  · exact .one hone
  · exact .two htwo
  · exact .four hfour
  · exact .eight h

end CompactSize
