/-!
# Random draws

Random words come from a stream, given as a function from positions to words.
Drawing takes the word at the current position and moves on, so that every
draw has a word of its own; whatever holds for all streams therefore holds
whatever each draw yields within its range.
-/

namespace Specificity

/-! ## Streams -/

/-- The step between successive inputs of `scramble`: the odd word nearest to
2^64 divided by the golden ratio. -/
def goldenStep : UInt64 := 0x9E3779B97F4A7C15

/-- **Scrambling a word**: two rounds of shifting, merging and multiplying, by which
a change in any bit spreads over all of them. -/
def scramble (w : UInt64) : UInt64 :=
  let w := (w ^^^ (w >>> 30)) * 0xBF58476D1CE4E5B9
  let w := (w ^^^ (w >>> 27)) * 0x94D049BB133111EB
  w ^^^ (w >>> 31)

/-- A stream of words and a position in it. -/
structure Source where
  /-- The word at each position. -/
  stream : Nat → UInt64
  /-- The position of the next word. -/
  position : Nat

/-- **The stream that belongs to a seed**: a stream of its own, made by scrambling the numbers
that follow the seed in equal steps. It is not what some other generator makes of the same seed,
so a run that such a generator feeds draws other triggers. -/
def Source.ofSeed (seed : UInt64) : Source :=
  ⟨fun i => scramble (seed + goldenStep * .ofNat (i + 1)), 0⟩

/-! ## Draws -/

/-- A value that depends on random words. -/
abbrev Draw (β : Type) := StateM Source β

namespace Draw

variable {β : Type}

/-- The next word. -/
def word : Draw UInt64 := fun s => (s.stream s.position, { s with position := s.position + 1 })

/-- **A number below `n`**, or zero if there is none. -/
def below (n : Nat) : Draw Nat := do
  return (← word).toNat % max n 1

/-- A number from `least` on that is below `limit`. -/
def between (least limit : Nat) : Draw Nat := do
  return least + (← below (limit - least))

/-- True once in `n` times. -/
def onceIn (n : Nat) : Draw Bool := do
  return (← below n) == 0

/-- A member of a list, if it has one. -/
def oneOf (pool : List β) : Draw (Option β) := do
  if pool.isEmpty then return none
  return pool[← below pool.length]?

/-- **Up to `count` members of a list**, no place of the list twice. -/
def several : Nat → List β → Draw (List β)
  | 0, _ => return []
  | count + 1, pool => do
    if pool.isEmpty then return []
    let i ← below pool.length
    let rest ← several count (pool.eraseIdx i)
    return pool[i]?.toList ++ rest

end Draw

end Specificity
