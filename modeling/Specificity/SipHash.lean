/-!
# SipHash

A hash of byte strings of any length to words of 64 bits: SipHash with one round
for each word taken in and three at the end, under the key zero. The bytes are
taken in eight at a time, the first of them as the lowest of a word. The last
word holds the bytes that are left over and, as its highest byte, the length, so
that strings of different lengths end differently.
-/

namespace Specificity

/-- The state of a hash in progress. -/
structure SipHash where
  /-- The first word of the inner state. -/
  v0 : UInt64
  /-- The second word of the inner state. -/
  v1 : UInt64
  /-- The third word of the inner state. -/
  v2 : UInt64
  /-- The fourth word of the inner state. -/
  v3 : UInt64
  /-- The bytes that do not fill a word yet. -/
  rest : UInt64
  /-- The number of bytes so far. -/
  length : UInt64

namespace SipHash

/-- **The start of a hash**: the four fixed words of the algorithm. -/
def start : SipHash :=
  ⟨0x736f6d6570736575, 0x646f72616e646f6d, 0x6c7967656e657261, 0x7465646279746573, 0, 0⟩

/-- The word with its bits moved up by `n` places, those that leave at the top
coming in at the bottom. -/
def rotate (w n : UInt64) : UInt64 := (w <<< n) ||| (w >>> (64 - n))

/-- One round of mixing the inner state. -/
def round (h : SipHash) : SipHash :=
  let v0 := h.v0 + h.v1
  let v1 := rotate h.v1 13 ^^^ v0
  let v0 := rotate v0 32
  let v2 := h.v2 + h.v3
  let v3 := rotate h.v3 16 ^^^ v2
  let v0 := v0 + v3
  let v3 := rotate v3 21 ^^^ v0
  let v2 := v2 + v1
  let v1 := rotate v1 17 ^^^ v2
  let v2 := rotate v2 32
  { h with v0, v1, v2, v3 }

/-- Takes in a full word. -/
def absorb (h : SipHash) (w : UInt64) : SipHash :=
  let h := round { h with v3 := h.v3 ^^^ w }
  { h with v0 := h.v0 ^^^ w }

/-- Takes in one byte. -/
def push (h : SipHash) (b : UInt8) : SipHash :=
  let w := h.rest ||| (b.toUInt64 <<< (8 * (h.length % 8)))
  if h.length % 8 == 7 then { h.absorb w with rest := 0, length := h.length + 1 }
  else { h with rest := w, length := h.length + 1 }

/-- The end of a hash. -/
def finish (h : SipHash) : UInt64 :=
  let h := h.absorb (h.rest ||| (h.length <<< 56))
  let h := round (round (round { h with v2 := h.v2 ^^^ 0xff }))
  h.v0 ^^^ h.v1 ^^^ h.v2 ^^^ h.v3

/-- **The hash of a byte string.** -/
def ofBytes (bytes : List UInt8) : UInt64 := (bytes.foldl push start).finish

end SipHash

end Specificity
