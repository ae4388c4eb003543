import MergeMiningMonitor.Support.Slices

/-!
# Support — Sha256

SHA-256 as a function that can be evaluated.  Results about hashed bytes have the hash as a parameter,
and their samples use this one.  Words are kept together in one number with the first word highest:
eight of them are a state, and sixteen a block or the window of its schedule.  The operations are the
functions of `Nat` that the kernel evaluates at once.
-/

namespace Sha256

open Slices

/-- A word of a number, counted from its last one. -/
def word (x i : ℕ) : ℕ := (x.shiftRight (Nat.mul 32 i)).mod 0x100000000

def sum (x y : ℕ) : ℕ := (x.add y).mod 0x100000000

/-- The bits of `x`, and then `n` bits of `y`. -/
def append (n x y : ℕ) : ℕ := (x.shiftLeft n).add y

def rotr (x n : ℕ) : ℕ := ((x.mul 0x100000001).shiftRight n).mod 0x100000000

def xor₃ (x y z : ℕ) : ℕ := (x.xor y).xor z

def initialState : ℕ := 0x6a09e667bb67ae853c6ef372a54ff53a510e527f9b05688c1f83d9ab5be0cd19

/-- The constants of the rounds. -/
def constants : List ℕ :=
  [0x428a2f9871374491b5c0fbcfe9b5dba53956c25b59f111f1923f82a4ab1c5ed5,
    0xd807aa9812835b01243185be550c7dc372be5d7480deb1fe9bdc06a7c19bf174,
    0xe49b69c1efbe47860fc19dc6240ca1cc2de92c6f4a7484aa5cb0a9dc76f988da,
    0x983e5152a831c66db00327c8bf597fc7c6e00bf3d5a7914706ca635114292967,
    0x27b70a852e1b21384d2c6dfc53380d13650a7354766a0abb81c2c92e92722c85,
    0xa2bfe8a1a81a664bc24b8b70c76c51a3d192e819d6990624f40e3585106aa070,
    0x19a4c1161e376c082748774c34b0bcb5391c0cb34ed8aa4a5b9cca4f682e6ff3,
    0x748f82ee78a5636f84c878148cc7020890befffaa4506cebbef9a3f7c67178f2].flatMap fun x =>
      [7, 6, 5, 4, 3, 2, 1, 0].map (word x)

/-- One round on the state `s.1` and the window `s.2`. -/
def round (s : ℕ × ℕ) (k : ℕ) : ℕ × ℕ :=
  let a := word s.1 7
  let b := word s.1 6
  let c := word s.1 5
  let e := word s.1 3
  let choice := (e.land (word s.1 2)).xor ((Nat.sub 0xffffffff e).land (word s.1 1))
  let t := (((word s.1 0).add (xor₃ (rotr e 6) (rotr e 11) (rotr e 25))).add choice).add
    (k.add (word s.2 15))
  let u := (xor₃ (rotr a 2) (rotr a 13) (rotr a 22)).add (xor₃ (a.land b) (a.land c) (b.land c))
  let x := word s.2 14
  let y := word s.2 1
  let next := sum ((xor₃ (rotr y 17) (rotr y 19) (y.shiftRight 10)).add (word s.2 6))
    ((xor₃ (rotr x 7) (rotr x 18) (x.shiftRight 3)).add (word s.2 15))
  let high := append 32 (append 96 (sum t u) (s.1.shiftRight 160)) (sum (word s.1 4) t)
  (append 96 high ((s.1.shiftRight 32).mod (Nat.pow 2 96)), append 32 (s.2.mod (Nat.pow 2 480)) next)

def compress (state block : ℕ) : ℕ :=
  let s := (constants.foldl round (state, block)).1
  [7, 6, 5, 4, 3, 2, 1, 0].foldl (fun x i => append 32 x (sum (word state i) (word s i))) 0

/-- The first blocks of a padded message. -/
def blocks : ℕ → ℕ → List ℕ
  | 0, _ => []
  | n + 1, message => (message.shiftRight (Nat.mul 512 n)).mod (Nat.pow 2 512) :: blocks n message

def digest (bytes : List UInt8) : List UInt8 :=
  let n := (bytes.length + 72) / 64
  let padding := 64 * n - bytes.length - 1
  let message := (ofBeBytes bytes * 256 + 128) * 256 ^ padding + 8 * bytes.length
  toBeBytes 32 ((blocks n message).foldl compress initialState)

theorem length_digest (bytes : List UInt8) : (digest bytes).length = 32 := length_toBeBytes _ _

example : digest [0x61, 0x62, 0x63] =
    toBeBytes 32 0xba7816bf8f01cfea414140de5dae2223b00361a396177a9cb410ff61f20015ad := by
  decide +kernel

end Sha256
