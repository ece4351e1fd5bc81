import Std.Data.TreeMap.Lemmas
import Specificity.Clause

/-!
# Dropping repetitions

Of several like members of a list only the first is kept. To save comparisons,
the members kept so far are filed by their fingerprints, and a member is compared
only with those that have its own. As long as like members have equal
fingerprints, this keeps the same members.
-/

namespace Specificity

variable {α : Type}

/-! ## Comparing with every kept member -/

/-- **Keeping first members**: drops every member that is the same as an
earlier one that was kept. -/
def keepFirst (same : α → α → Bool) (items : List α) : List α :=
  items.foldl (fun kept x => if kept.any fun y => same y x then kept else kept ++ [x]) []

/-! ## Comparing within a fingerprint -/

/-- The members kept so far. -/
structure Kept (α : Type) where
  /-- The members by fingerprint. -/
  buckets : Std.TreeMap UInt64 (List α)
  /-- All members, the latest first. -/
  latest : List α

namespace Kept

/-- No member. -/
def empty : Kept α := ⟨∅, []⟩

/-- The members with a fingerprint. -/
def bucket (k : Kept α) (fp : UInt64) : List α := (k.buckets[fp]?).getD []

/-- One more member, with its fingerprint. -/
def push (k : Kept α) (fp : UInt64) (x : α) : Kept α :=
  ⟨k.buckets.insert fp (x :: k.bucket fp), x :: k.latest⟩

/-- One more member unless it is the same as one with its fingerprint. -/
def offer (fingerprint : α → UInt64) (same : α → α → Bool) (k : Kept α) (x : α) : Kept α :=
  let fp := fingerprint x
  if (k.bucket fp).any fun y => same y x then k else k.push fp x

/-- The members in the order in which they were kept. -/
def toList (k : Kept α) : List α := k.latest.reverse

theorem bucket_empty (fp : UInt64) : (empty : Kept α).bucket fp = [] := by
  simp [empty, bucket]

theorem bucket_push (k : Kept α) (fp other : UInt64) (x : α) :
    (k.push fp x).bucket other = if other = fp then x :: k.bucket fp else k.bucket other := by
  by_cases h : fp = other
  · subst h
    simp [bucket, push]
  · simp [bucket, push, Std.TreeMap.getElem?_insert, h, Ne.symm h]

end Kept

/-- **Keeping first members by fingerprint**: `same` is asked only of members
with equal fingerprints. -/
def keepFirstBy (fingerprint : α → UInt64) (same : α → α → Bool) (items : List α) : List α :=
  (items.foldl (Kept.offer fingerprint same) .empty).toList

/-- Are the buckets the kept members, each under its own fingerprint? -/
def Kept.Filed (fingerprint : α → UInt64) (k : Kept α) : Prop :=
  ∀ fp y, y ∈ k.bucket fp ↔ y ∈ k.latest ∧ fingerprint y = fp

theorem Kept.Filed.push {fingerprint : α → UInt64} {k : Kept α} (h : k.Filed fingerprint) (x : α) :
    (k.push (fingerprint x) x).Filed fingerprint := by
  intro fp y
  rw [bucket_push]
  by_cases hfp : fp = fingerprint x
  · subst hfp
    simp only [if_true, List.mem_cons, h (fingerprint x) y, Kept.push]
    constructor
    · rintro (rfl | ⟨hy, hf⟩)
      · exact ⟨.inl rfl, rfl⟩
      · exact ⟨.inr hy, hf⟩
    · rintro ⟨rfl | hy, hf⟩
      · exact .inl rfl
      · exact .inr ⟨hy, hf⟩
  · simp only [hfp, if_false, h fp y, Kept.push, List.mem_cons]
    constructor
    · exact fun ⟨hy, hf⟩ => ⟨.inr hy, hf⟩
    · rintro ⟨rfl | hy, hf⟩
      · exact absurd hf.symm hfp
      · exact ⟨hy, hf⟩

/-- A kept member is the same as `x` exactly if one in the bucket of `x` is. -/
theorem Kept.Filed.any_bucket {fingerprint : α → UInt64} {same : α → α → Bool} {k : Kept α}
    (h : k.Filed fingerprint) (agree : ∀ x y, same y x = true → fingerprint y = fingerprint x)
    (x : α) :
    (k.bucket (fingerprint x)).any (fun y => same y x) = k.toList.any fun y => same y x := by
  rw [Bool.eq_iff_iff]
  simp only [List.any_eq_true, toList, List.mem_reverse]
  constructor
  · rintro ⟨y, hy, hs⟩
    exact ⟨y, ((h _ _).1 hy).1, hs⟩
  · rintro ⟨y, hy, hs⟩
    exact ⟨y, (h _ _).2 ⟨hy, agree x y hs⟩, hs⟩

/-- **Fingerprints lose nothing** as long as members that are the same have equal
ones. -/
theorem keepFirstBy_eq_keepFirst {fingerprint : α → UInt64} {same : α → α → Bool}
    (agree : ∀ x y, same y x = true → fingerprint y = fingerprint x) (items : List α) :
    keepFirstBy fingerprint same items = keepFirst same items := by
  suffices h : ∀ (k : Kept α), k.Filed fingerprint →
      (items.foldl (Kept.offer fingerprint same) k).toList =
        items.foldl (fun kept x => if kept.any fun y => same y x then kept else kept ++ [x])
          k.toList from
    h .empty fun fp y => by rw [Kept.bucket_empty]; simp [Kept.empty]
  induction items with
  | nil => exact fun _ _ => rfl
  | cons x xs ih =>
    intro k hk
    simp only [List.foldl_cons, Kept.offer, hk.any_bucket agree]
    split
    · exact ih k hk
    · rw [ih _ (hk.push x)]
      simp [Kept.toList, Kept.push]

namespace Clause

/-- The clause without repeated predicates. -/
def distinct (digest : Digest) (c : Clause) : Clause :=
  { c with conjuncts := keepFirstBy digest.ofExpression Expression.alike c.conjuncts }

/-- The list without repeated clauses. -/
def distinctAll (digest : Digest) (cs : List Clause) : List Clause :=
  keepFirstBy (fingerprint digest) alike cs

end Clause

end Specificity
