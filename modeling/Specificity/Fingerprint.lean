import Specificity.Expression
import Specificity.NameMap
import Specificity.SipHash

/-!
# Fingerprints

A fingerprint is a word computed from a structure, so that structures with
different words are known to differ without being compared. What may be
fingerprinted is listed by `Subject`; a `Digest` is any function from subjects
to words. The fingerprints below are written over an arbitrary digest, since
what they are used for must not depend on which one it is. Parts that count
as a bag are sorted before they are digested, so that a fingerprint agrees
with likeness.
-/

namespace Specificity

/-- What sets one bag of fingerprints apart from another. -/
inductive Tag where
  /-- The kind of the expression whose operands they are. -/
  | kind (k : Expression.Kind)
  /-- A freely chosen name. -/
  | name (s : String)
deriving DecidableEq

/-- What a fingerprint is taken of. -/
inductive Subject where
  /-- A value. -/
  | constant (value : Value)
  /-- A name. -/
  | accessor (name : String)
  /-- An expression of some kind, given by the fingerprints of its operands in order. -/
  | compound (kind : Expression.Kind) (parts : List UInt64)
  /-- A bag of fingerprints, in ascending order. -/
  | bag (tag : Tag) (parts : List UInt64)
  /-- A clause, given by the fingerprint of its conjuncts and its bindings. -/
  | clause (conjuncts : UInt64) (bindings : NameMap String)

/-! ## Bags as sorted lists -/

/-- An ascending list of words with one more word in its place. -/
def insertWord (w : UInt64) : List UInt64 → List UInt64
  | [] => [w]
  | v :: vs => if w ≤ v then w :: v :: vs else v :: insertWord w vs

/-- The words of a list in ascending order. -/
def sortWords (ws : List UInt64) : List UInt64 := ws.foldr insertWord []

/-! ## Taking fingerprints -/

/-- A way to take fingerprints. -/
abbrev Digest := Subject → UInt64

namespace Digest

/-- **The fingerprint of a bag**: the order of `parts` does not matter. -/
def ofBag (digest : Digest) (tag : Tag) (parts : List UInt64) : UInt64 :=
  digest (.bag tag (sortWords parts))

mutual

/-- **The fingerprint of an expression**: alike expressions have equal ones. -/
def ofExpression (digest : Digest) : Expression → UInt64
  | .constant v => digest (.constant v)
  | .accessor x => digest (.accessor x)
  | .and es => digest.ofBag (.kind .and) (ofAll digest es)
  | .or es => digest.ofBag (.kind .or) (ofAll digest es)
  | .not e => digest (.compound .not [ofExpression digest e])
  | .optional e => digest (.compound .optional [ofExpression digest e])
  | .ignore e => digest (.compound .ignore [ofExpression digest e])
  | .present e => digest (.compound .present [ofExpression digest e])
  | .compare op l r =>
    digest (.compound (.compare op) [ofExpression digest l, ofExpression digest r])

/-- The fingerprints of a list of expressions. -/
def ofAll (digest : Digest) : List Expression → List UInt64
  | [] => []
  | e :: es => ofExpression digest e :: ofAll digest es

end

/-! ## The digest in use -/

/-- A word as eight bytes, the lowest first. -/
def bytesOfWord (w : UInt64) : List UInt8 :=
  [w.toUInt8, (w >>> 8).toUInt8, (w >>> 16).toUInt8, (w >>> 24).toUInt8,
    (w >>> 32).toUInt8, (w >>> 40).toUInt8, (w >>> 48).toUInt8, (w >>> 56).toUInt8]

/-- A number as eight bytes. -/
def bytesOfNat (n : Nat) : List UInt8 := bytesOfWord (.ofNat n)

/-- A list of words as bytes, after their number. -/
def bytesOfWords (ws : List UInt64) : List UInt8 := bytesOfNat ws.length ++ ws.flatMap bytesOfWord

/-- A text as bytes, closed by one that occurs in no text. -/
def bytesOfText (s : String) : List UInt8 := s.toUTF8.data.toList ++ [0xff]

/-- A value as bytes, after the place of its kind. -/
def bytesOfValue : Value → List UInt8
  | .null => bytesOfNat 0
  | .bool b => bytesOfNat 1 ++ [if b then 1 else 0]
  | .integer n => bytesOfNat 2 ++ bytesOfWord n.toUInt64
  | .text s => bytesOfNat 3 ++ bytesOfText s

/-- The place of a kind among all kinds, as bytes. -/
def bytesOfKind (k : Expression.Kind) : List UInt8 := bytesOfNat (Expression.Kind.all.idxOf k)

/-- **The bytes of a subject.** Each part is written so that its end can be told,
and no word that stands for a kind begins like a text. -/
def bytesOf : Subject → List UInt8
  | .constant v => bytesOfText "const" ++ bytesOfValue v
  | .accessor x => bytesOfText "accessor" ++ bytesOfText x
  | .compound k parts => bytesOfKind k ++ bytesOfWords parts
  | .bag (.kind k) parts => bytesOfKind k ++ bytesOfWords parts
  | .bag (.name s) parts => bytesOfText s ++ bytesOfWords parts
  | .clause conjuncts bindings =>
    bytesOfWord conjuncts ++ bytesOfNat bindings.size ++
      bindings.entries.flatMap fun e => bytesOfText e.1 ++ bytesOfText e.2

/-- **The digest in use**: the hash of the bytes of a subject. -/
def standard : Digest := fun subject => SipHash.ofBytes (bytesOf subject)

end Digest

end Specificity
