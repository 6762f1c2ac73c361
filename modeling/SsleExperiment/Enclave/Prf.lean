import Mathlib.Data.UInt

/-! # The pseudo-random function of the enclave

`PPRF::prf` runs `prvhash_core64` for `2^28` rounds over three words that it
updates through pointers and returns the last output. The election is proved
for every function of these words (`Ssle.PRF`); `Ssle.PPRF.prf` is the one the
enclave calls.
-/

namespace Ssle

/-- The three words a PRF call reads and overwrites. -/
structure PRFState where
  seed : UInt64
  lcg : UInt64
  hash : UInt64
  deriving DecidableEq, Repr

/-- A pseudo-random function: the value returned, and the words left behind. -/
abbrev PRF := PRFState → UInt64 × PRFState

/-- The PRF that returns `value` and leaves its words alone. -/
def PRF.returning (value : UInt64) : PRF := fun state => (value, state)

/-- One round of `prvhash_core64`. -/
def prvhashCore64 (state : PRFState) : UInt64 × PRFState :=
  let seed := state.seed * (state.lcg * 2 + 1)
  let rs := seed >>> 32 ||| seed <<< 32
  let hash := state.hash + (rs + 0xAAAAAAAAAAAAAAAA)
  let lcg := state.lcg + (seed + 0x5555555555555555)
  (lcg ^^^ rs, { seed := seed ^^^ hash, lcg := lcg, hash := hash })

namespace PPRF

/-- The loop of `PPRF::prf`: `rounds` further rounds, the last output returned. -/
def prfLoop : Nat → UInt64 → PRFState → UInt64 × PRFState
  | 0, ret, state => (ret, state)
  | rounds + 1, _, state =>
      let (ret, next) := prvhashCore64 state
      prfLoop rounds ret next

/-- `PPRF::prf`. -/
def prf : PRF := prfLoop (2 ^ 28) 0

end PPRF

end Ssle
