import Specificity.Workload.Settings

/-!
# Settings from a command line

Every setting has a long option of its own. A value stands in the same word
after an equals sign or is the next word, provided that does not look like an
option. A value that stands in a word of its own is only looked at when the
next option comes, or at the end; so a word that is unknown is reported before
a bad value in front of it. No option may be given twice. Two switches ask for
information instead of a run, and have short forms.
-/

namespace Specificity

/-- Why a command line gives no settings. -/
inductive Refusal where
  /-- The command line asks for help. -/
  | help
  /-- The command line asks for the version. -/
  | version
  /-- A word that is no option and no value of one. -/
  | unknown (word : String)
  /-- An option lacks its value, or has an empty one where it must not. -/
  | missingValue (option : String)
  /-- A value that its option cannot take. -/
  | badValue (option value : String)
  /-- An option that was given before. -/
  | repeated (option : String)
  /-- A value for an option that takes none. -/
  | needlessValue (option value : String)
deriving DecidableEq

/-- The message about a refusal that is an error. -/
def Refusal.message : Refusal → String
  | help => ""
  | version => ""
  | unknown word => s!"unexpected argument '{word}'"
  | missingValue option => s!"a value is required for '--{option}'"
  | badValue option value => s!"invalid value '{value}' for '--{option}'"
  | repeated option => s!"the argument '--{option}' cannot be used multiple times"
  | needlessValue option value => s!"unexpected value '{value}' for '--{option}'"

namespace CommandLine

/-! ## Options -/

/-- How an option changes the settings. -/
inductive Effect where
  /-- It takes a number. -/
  | number (store : UInt64 → Settings → Settings)
  /-- It takes the path of a file. -/
  | path (store : String → Settings → Settings)
  /-- It takes any text. -/
  | text (store : String → Settings → Settings)
  /-- It takes no value. -/
  | switch (store : Settings → Settings)
  /-- It takes no value and asks for something else. -/
  | request (answer : Refusal)

/-- An option of the command line. -/
structure Opt where
  /-- Its name, without the leading hyphens. -/
  name : String
  /-- What it does. -/
  effect : Effect

/-- **The options.** -/
def options : List Opt :=
  [ ⟨"seed", .number fun n s => { s with seed := n }⟩,
    ⟨"predicates", .number fun n s => { s with predicates := n }⟩,
    ⟨"singletons", .number fun n s => { s with singletons := n }⟩,
    ⟨"conjunctions", .number fun n s => { s with conjunctions := n }⟩,
    ⟨"disjunctions", .number fun n s => { s with disjunctions := n }⟩,
    ⟨"optionals", .number fun n s => { s with optionals := n }⟩,
    ⟨"quantifiers", .number fun n s => { s with quantifiers := n }⟩,
    ⟨"nots", .number fun n s => { s with nots := n }⟩,
    ⟨"min-clause", .number fun n s => { s with leastOperands := n }⟩,
    ⟨"max-clause", .number fun n s => { s with operandLimit := n }⟩,
    ⟨"max-expansion", .number fun n s => { s with mostBindings := n }⟩,
    ⟨"max-quantifiers", .number fun n s => { s with mostQuantifiers := n }⟩,
    ⟨"bound-comparers", .switch fun s => { s with orderBounds := true }⟩,
    ⟨"dot", .path fun p s => { s with dot := some p }⟩,
    ⟨"log", .text fun t s => { s with log := t }⟩,
    ⟨"help", .request .help⟩,
    ⟨"version", .request .version⟩ ]

/-- The switches with a short form. -/
def shortForms : List (Char × Opt) :=
  [('h', ⟨"help", .request .help⟩), ('V', ⟨"version", .request .version⟩)]

/-! ## Words -/

/-- The value of a decimal digit. -/
def digit? (c : Char) : Option Nat :=
  if '0' ≤ c ∧ c ≤ '9' then some (c.toNat - '0'.toNat) else none

/-- The number that a list of decimal digits stands for. -/
def digits? (cs : List Char) : Option Nat :=
  cs.foldl (fun n c => n.bind fun n => (digit? c).map fun d => 10 * n + d) (some 0)

/-- **A number**: decimal digits, at least one, after a plus sign or none, below
2^64. -/
def number? (s : String) : Option UInt64 :=
  let ds :=
    match s.toList with
    | '+' :: ds => ds
    | ds => ds
  if ds.isEmpty then none
  else (digits? ds).bind fun n => if n < UInt64.size then some (.ofNat n) else none

/-- What a word of the command line looks like. -/
inductive Word where
  /-- Two hyphens alone: no option comes after it. -/
  | stop
  /-- A long option, perhaps with a value. -/
  | long (name : String) (value : Option String)
  /-- One hyphen and what follows: short options, of which the first decides. -/
  | short (first : Char)
  /-- Anything else. -/
  | plain

/-- The look of a word. -/
def Word.of (s : String) : Word :=
  match s.toList with
  | ['-', '-'] => .stop
  | '-' :: '-' :: cs =>
    let name := cs.takeWhile fun c => c ≠ '='
    .long (.ofList name) <|
      match cs.drop name.length with
      | [] => none
      | _ :: value => some (.ofList value)
  | '-' :: c :: _ => .short c
  | _ => .plain

/-! ## Reading -/

/-- The state of reading a command line. -/
structure Reading where
  /-- The settings so far. -/
  settings : Settings
  /-- The names of the options given so far. -/
  given : List String
  /-- An option whose value was not looked at yet, with the value if it came. -/
  pending : Option (Opt × Option String)

/-- What an option makes of the settings, given its value. -/
def Effect.run (name : String) (value : String) (s : Settings) : Effect → Except Refusal Settings
  | .number store =>
    match number? value with
    | some n => .ok (store n s)
    | none => .error (.badValue name value)
  | .path store => if value.isEmpty then .error (.missingValue name) else .ok (store value s)
  | .text store => .ok (store value s)
  | .switch store => .ok (store s)
  | .request answer => .error answer

/-- Takes in an option with its value, unless it was given before. -/
def Reading.take (r : Reading) (opt : Opt) (value : String) : Except Refusal Reading :=
  if r.given.contains opt.name then .error (.repeated opt.name)
  else
    (opt.effect.run opt.name value r.settings).map fun settings =>
      { r with settings, given := opt.name :: r.given }

/-- Looks at the value of the pending option, if there is one. -/
def Reading.settle (r : Reading) : Except Refusal Reading :=
  match r.pending with
  | none => .ok r
  | some (opt, none) => .error (.missingValue opt.name)
  | some (opt, some value) => { r with pending := none }.take opt value

/-- Does the option take a value? -/
def Opt.takesValue (opt : Opt) : Bool :=
  match opt.effect with
  | .number _ | .path _ | .text _ => true
  | .switch _ | .request _ => false

/-- Takes in one word that is no stop. -/
def Reading.next (r : Reading) (word : String) : Except Refusal Reading :=
  match Word.of word with
  | .stop => .error (.unknown word)
  | .plain =>
    match r.pending with
    | some (opt, none) => .ok { r with pending := some (opt, some word) }
    | _ => .error (.unknown word)
  | .short first =>
    match shortForms.lookup first with
    | none => .error (.unknown word)
    | some opt => r.settle.bind fun r => r.take opt ""
  | .long name value =>
    match options.find? fun opt => opt.name = name with
    | none => .error (.unknown word)
    | some opt =>
      if opt.takesValue then
        r.settle.bind fun r =>
          match value with
          | some value => r.take opt value
          | none => .ok { r with pending := some (opt, none) }
      else
        match value with
        | some value => .error (.needlessValue name value)
        | none => r.settle.bind fun r => r.take opt ""

/-- Takes in the words in order. After a stop no further word is known. -/
def Reading.all : List String → Reading → Except Refusal Reading
  | [], r => r.settle
  | word :: words, r =>
    match Word.of word with
    | .stop =>
      match words with
      | [] => r.settle
      | word :: _ => .error (.unknown word)
    | _ => (r.next word).bind (Reading.all words)

/-- **The settings that a command line gives.** -/
def parse (words : List String) : Except Refusal Settings :=
  (Reading.all words ⟨{}, [], none⟩).map Reading.settings

end CommandLine

end Specificity
