import Specificity.Proofs.Visiting
import Specificity.Tree.Drawing

/-!
# Reading the drawings of a tree back

The drawings of a tree are texts. To say what they show, their lines are read by readers
that know how a line looks and nothing of the tree. In an outline, four characters for each
level come first, then a branch, then either the caption of a node, or a caret and a handle.
In a graph description a line gives a handle and a quoted caption, or an arrow between two
handles. Either reader is shown to find in a line what it was written for.

Names and texts are written into a caption as they are and may hold line breaks, so the
lines of a drawing are not what stands between its line breaks. A drawing is read line by
line in another way: its text is a row of lines, each of which the reader understands
(`Reads`).
-/

namespace Specificity

/-! ## Handles -/

/-- The handle at the front of a text and what follows it. -/
def NodeId.readOff? : List Char → Option (NodeId × List Char)
  | 'n' :: text =>
    let digits := text.takeWhile Char.isDigit
    if digits = [] then none
    else some (⟨Nat.ofDigitChars 10 digits 0⟩, text.dropWhile Char.isDigit)
  | _ => none

theorem NodeId.toList_toString (v : NodeId) :
    (toString v).toList = 'n' :: Nat.toDigits 10 v.index := by
  change ("n" ++ toString v.index).toList = _
  simp

/-- **A handle is read back**, unless a digit follows it. -/
theorem NodeId.readOff?_toString (v : NodeId) {text : List Char}
    (htext : text.takeWhile Char.isDigit = []) :
    readOff? ((toString v).toList ++ text) = some (v, text) := by
  have hdigits : ∀ c ∈ Nat.toDigits 10 v.index, c.isDigit = true := fun c hc =>
    Nat.isDigit_of_mem_toDigits (by decide) (by decide) hc
  have hrest : text.dropWhile Char.isDigit = text := by
    have hsplit := List.takeWhile_append_dropWhile (p := Char.isDigit) (l := text)
    rwa [htext, List.nil_append] at hsplit
  rw [v.toList_toString, List.cons_append, readOff?, List.takeWhile_append_of_pos hdigits,
    List.dropWhile_append_of_pos hdigits, htext, hrest, List.append_nil,
    if_neg Nat.toDigits_ne_nil, Nat.ofDigitChars_ten_toDigits]

/-! ## Quoted texts -/

/-- The text up to the next double quote that no backslash stands before, and what follows
that quote. A backslash stands for the character after it. -/
def readQuoted? : List Char → Option (List Char × List Char)
  | [] => none
  | '"' :: text => some ([], text)
  | '\\' :: c :: text => (readQuoted? text).map fun r => (c :: r.1, r.2)
  | c :: text => (readQuoted? text).map fun r => (c :: r.1, r.2)

/-- **A text in quotes is read back.** -/
theorem readQuoted?_escapeQuoted (s : String) (text : List Char) :
    readQuoted? ((escapeQuoted s).toList ++ '"' :: text) = some (s.toList, text) := by
  rw [escapeQuoted, String.toList_join, List.flatMap_map]
  induction s.toList with
  | nil => rfl
  | cons c cs ih =>
    rw [List.flatMap_cons, List.append_assoc]
    by_cases hslash : c = '\\'
    · subst hslash
      simpa [readQuoted?] using ih
    · by_cases hquote : c = '"'
      · subst hquote
        simpa [readQuoted?] using ih
      · rw [if_neg hslash, if_neg hquote, Char.toString, String.toList_singleton,
          List.singleton_append, readQuoted?, ih, Option.map_some]
        · exact hquote
        · exact fun _ _ h => absurd h hslash

/-! ## Rows of lines -/

/-- **A text read line by line**: each line ends with a line break and says one thing to
its reader. -/
inductive Reads {β : Type} (read? : List Char → Option β) : List Char → List β → Prop where
  /-- An empty text says nothing. -/
  | nil : Reads read? [] []
  /-- A line says what its reader finds in it. -/
  | cons {line text : List Char} {x : β} {said : List β} (first : read? line = some x)
      (rest : Reads read? text said) : Reads read? (line ++ '\n' :: text) (x :: said)

/-- **Lines that were written one after the other** are read one after the other. -/
theorem Reads.of_join {β γ : Type} {read? : List Char → Option β} {write : γ → String}
    {tells : γ → β} {xs : List γ}
    (h : ∀ x ∈ xs, ∃ line, write x = line ++ "\n" ∧ read? line.toList = some (tells x)) :
    Reads read? (String.join (xs.map write)).toList (xs.map tells) := by
  induction xs with
  | nil => exact .nil
  | cons x xs ih =>
    obtain ⟨line, hwrite, hread⟩ := h x List.mem_cons_self
    have htext : (String.join ((x :: xs).map write)).toList =
        line.toList ++ '\n' :: (String.join (xs.map write)).toList := by
      rw [List.map_cons, String.join_cons, hwrite]
      simp
    rw [htext]
    exact .cons hread (ih fun y hy => h y (List.mem_cons_of_mem _ hy))

/-! ## Lines of an outline -/

/-- What a line of an outline says. -/
structure OutlineLine where
  /-- How many levels there are above. -/
  depth : Nat
  /-- The node whose handle is given. -/
  node : NodeId
  /-- Does a caret mark the node as one that was spelled out before? -/
  repeated : Bool
  /-- What stands after the branch and the caret. -/
  text : String

namespace OutlineLine

/-- Reads what stands after a branch. -/
def readLabel? : List Char → Option OutlineLine
  | '^' :: text => (NodeId.readOff? text).map fun r => ⟨0, r.1, true, String.ofList text⟩
  | text => (NodeId.readOff? text).map fun r => ⟨0, r.1, false, String.ofList text⟩

/-- **The reader of an outline's lines.** -/
def read? : List Char → Option OutlineLine
  | ' ' :: ' ' :: ' ' :: ' ' :: line => (read? line).map fun l => { l with depth := l.depth + 1 }
  | '│' :: ' ' :: ' ' :: ' ' :: line => (read? line).map fun l => { l with depth := l.depth + 1 }
  | '└' :: '─' :: '─' :: ' ' :: label => readLabel? label
  | '├' :: '─' :: '─' :: ' ' :: label => readLabel? label
  | _ => none

end OutlineLine

/-- What the levels above draw, the outermost first, each told whether its entry was the
last one. -/
def leadOf (above : List Bool) : String :=
  String.join (above.map fun last => if last then "    " else "│   ")

theorem leadOf_cons (last : Bool) (above : List Bool) :
    leadOf (last :: above) = (if last then "    " else "│   ") ++ leadOf above := by
  simp [leadOf]

theorem leadOf_append (above : List Bool) (last : Bool) :
    leadOf (above ++ [last]) = leadOf above ++ if last then "    " else "│   " := by
  simp [leadOf]

/-- What is drawn by each level is four characters wide. -/
theorem length_leadOf (above : List Bool) : (leadOf above).length = 4 * above.length := by
  induction above with
  | nil => rfl
  | cons last above ih =>
    rw [leadOf_cons, String.length_append, ih, List.length_cons]
    cases last
    all_goals
      change 4 + 4 * above.length = _
      omega

/-- **What the levels above draw** is read as the number of them. -/
theorem OutlineLine.read?_leadOf (above : List Bool) {line : List Char} {l : OutlineLine}
    (h : read? line = some l) :
    read? ((leadOf above).toList ++ line) = some { l with depth := above.length + l.depth } := by
  induction above with
  | nil => simpa [leadOf] using h
  | cons last above ih =>
    have hdepth : (last :: above).length + l.depth = above.length + l.depth + 1 := by
      rw [List.length_cons, Nat.add_right_comm]
    rw [leadOf_cons, String.toList_append, List.append_assoc, hdepth]
    cases last
    all_goals simp [read?, ih]

/-! ## Lines of a graph description -/

/-- What a line of a graph description says. -/
inductive DotLine where
  /-- There is a node with this caption. -/
  | node (id : NodeId) (caption : String)
  /-- There is an edge from a node to a child. -/
  | edge (parent child : NodeId)

namespace DotLine

/-- Reads what follows the first handle of a line. -/
def readStatement? (id : NodeId) : List Char → Option DotLine
  | ' ' :: '[' :: 'l' :: 'a' :: 'b' :: 'e' :: 'l' :: '=' :: '"' :: text =>
    (readQuoted? text).bind fun r =>
      if r.2 = [']', ';'] then some (.node id (String.ofList r.1)) else none
  | ' ' :: '-' :: '>' :: ' ' :: text =>
    (NodeId.readOff? text).bind fun r => if r.2 = [';'] then some (.edge id r.1) else none
  | _ => none

/-- **The reader of a graph description's lines.** -/
def read? : List Char → Option DotLine
  | ' ' :: ' ' :: ' ' :: ' ' :: text =>
    (NodeId.readOff? text).bind fun r => readStatement? r.1 r.2
  | _ => none

/-- A line is read as what follows its first handle. -/
theorem read?_handle (id : NodeId) {text : List Char} (htext : text.takeWhile Char.isDigit = []) :
    read? ("    ".toList ++ ((toString id).toList ++ text)) = readStatement? id text := by
  change (NodeId.readOff? ((toString id).toList ++ text)).bind _ = _
  rw [id.readOff?_toString htext]
  rfl

/-- **The line of a node is read back.** -/
theorem read?_node (id : NodeId) (caption : String) :
    read? ("    ".toList ++ ((toString id).toList ++ (" [label=\"".toList ++
      ((escapeQuoted caption).toList ++ "\"];".toList)))) = some (.node id caption) := by
  have hquoted : readQuoted? ((escapeQuoted caption).toList ++ "\"];".toList) =
      some (caption.toList, [']', ';']) := readQuoted?_escapeQuoted caption [']', ';']
  rw [read?_handle id rfl]
  change (readQuoted? ((escapeQuoted caption).toList ++ "\"];".toList)).bind _ = _
  rw [hquoted, Option.bind_some, if_pos rfl, String.ofList_toList]

/-- **The line of an edge is read back.** -/
theorem read?_edge (parent child : NodeId) :
    read? ("    ".toList ++ ((toString parent).toList ++ (" -> ".toList ++
      ((toString child).toList ++ ";".toList)))) = some (.edge parent child) := by
  have hchild : NodeId.readOff? ((toString child).toList ++ ";".toList) = some (child, [';']) :=
    child.readOff?_toString rfl
  rw [read?_handle parent rfl]
  change (NodeId.readOff? ((toString child).toList ++ ";".toList)).bind _ = _
  rw [hchild, Option.bind_some, if_pos rfl]

end DotLine

namespace Tree

variable {α : Type}

/-- **The caption of a node in use.** -/
theorem caption_of_get? {tree : Tree α} {v : NodeId} {n : Node} (h : tree.store.get? v = some n) :
    tree.caption v = toString v ++ " " ++ toString n.clause ++
      if n.visible = [] then "" else " [" ++ ", ".intercalate (n.visible.map toString) ++ "]" := by
  simp only [caption, h, List.isEmpty_iff]
  split
  · exact String.append_empty.symm
  · rw [← String.append_assoc, ← String.append_assoc]
    rfl

/-- A caption starts with a handle and a blank. -/
theorem exists_toList_caption (tree : Tree α) (v : NodeId) :
    ∃ label, (tree.caption v).toList = (toString v).toList ++ ' ' :: label := by
  cases h : tree.store.get? v with
  | none =>
    refine ⟨"<freed>".toList, ?_⟩
    rw [caption, h, String.toList_append]
    rfl
  | some n =>
    refine ⟨(toString n.clause ++ if n.visible = [] then "" else
      " [" ++ ", ".intercalate (n.visible.map toString) ++ "]").toList, ?_⟩
    rw [caption_of_get? h, String.append_assoc, String.append_assoc, String.toList_append,
      String.toList_append]
    rfl

/-! ## The outline in writing -/

/-- What the line of an entry says. -/
def said (tree : Tree α) (e : OutlineEntry) : OutlineLine where
  depth := e.lead.length / 4
  node := e.node
  repeated := e.repeated
  text := if e.repeated then toString e.node else tree.caption e.node

/-- What stands after a branch is read back. -/
theorem readLabel?_said (tree : Tree α) (e : OutlineEntry) :
    OutlineLine.readLabel? (if e.repeated then s!"^{e.node}" else tree.caption e.node).toList =
      some { tree.said e with depth := 0 } := by
  cases hrepeated : e.repeated with
  | false =>
    obtain ⟨label, hlabel⟩ := tree.exists_toList_caption e.node
    have hread : NodeId.readOff? (tree.caption e.node).toList = some (e.node, ' ' :: label) := by
      rw [hlabel]
      exact e.node.readOff?_toString rfl
    -- a caption starts with the handle, so there is no caret
    have hplain : OutlineLine.readLabel? (tree.caption e.node).toList =
        (NodeId.readOff? (tree.caption e.node).toList).map
          fun r => ⟨0, r.1, false, String.ofList (tree.caption e.node).toList⟩ := by
      rw [hlabel, e.node.toList_toString]
      rfl
    rw [if_neg Bool.false_ne_true, hplain, hread, Option.map_some, String.ofList_toList]
    simp [said, hrepeated]
  | true =>
    have hread : NodeId.readOff? ((toString e.node).toList ++ []) = some (e.node, []) :=
      e.node.readOff?_toString rfl
    rw [List.append_nil] at hread
    have htext : (s!"^{e.node}").toList = '^' :: (toString e.node).toList := by
      change ("^" ++ toString e.node).toList = _
      simp
    rw [if_pos rfl, htext, OutlineLine.readLabel?, hread, Option.map_some, String.ofList_toList]
    simp [said, hrepeated]

theorem depth_said (tree : Tree α) {e : OutlineEntry} {above : List Bool}
    (hlead : e.lead = leadOf above) : (tree.said e).depth = above.length := by
  rw [said, hlead, length_leadOf, Nat.mul_div_cancel_left _ (by decide)]

/-- **The line of an entry is read back.** -/
theorem read?_outlineLine (tree : Tree α) {e : OutlineEntry} {above : List Bool}
    (hlead : e.lead = leadOf above) :
    ∃ line, tree.outlineLine e = line ++ "\n" ∧
      OutlineLine.read? line.toList = some (tree.said e) := by
  refine ⟨_, rfl, ?_⟩
  have hbranch : OutlineLine.read? ((if e.last then "└── " else "├── ") ++
      if e.repeated then s!"^{e.node}" else tree.caption e.node).toList =
        some { tree.said e with depth := 0 } := by
    rw [String.toList_append]
    cases e.last
    all_goals exact tree.readLabel?_said e
  rw [hlead, String.append_assoc, String.toList_append, OutlineLine.read?_leadOf above hbranch,
    Nat.add_zero, ← tree.depth_said hlead]

/-- What stands before the branch of an entry was drawn by the levels above. -/
theorem exists_leadOf (tree : Tree α) {fuel : Nat} {above : List Bool} {k : NodeId × Bool}
    {shown : Marks Unit} {e : OutlineEntry}
    (h : e ∈ (tree.outlineBelow fuel (leadOf above) k shown).1) :
    ∃ above, e.lead = leadOf above := by
  induction fuel generalizing above k shown with
  | zero => exact absurd h List.not_mem_nil
  | succ fuel ih =>
    rw [outlineBelow] at h
    split at h
    · obtain rfl := List.mem_singleton.mp h
      exact ⟨above, rfl⟩
    · rcases List.mem_cons.mp h with rfl | hbelow
      · exact ⟨above, rfl⟩
      · obtain ⟨entries, hentries, he⟩ := List.mem_flatten.mp hbelow
        obtain ⟨k', shown', rfl⟩ := exists_of_mem_visitAll hentries
        rw [← leadOf_append] at he
        exact ih he

/-- **What the outline in writing says**: one thing for each entry. -/
theorem reads_print (tree : Tree α) :
    Reads OutlineLine.read? tree.print.toList (tree.outline.map tree.said) := by
  refine Reads.of_join fun e he => ?_
  have he : e ∈ (tree.outlineBelow (tree.store.slots.size + 1) (leadOf []) (.root, true) .empty).1 :=
    he
  obtain ⟨above, hlead⟩ := tree.exists_leadOf he
  exact tree.read?_outlineLine hlead

/-! ## The graph description in writing -/

/-- What the line of a statement says. -/
def stated (tree : Tree α) : DotStatement → DotLine
  | .node id => .node id (tree.caption id)
  | .edge parent child => .edge parent child

/-- **The line of a statement is read back.** -/
theorem read?_dotLine (tree : Tree α) (statement : DotStatement) :
    ∃ line, tree.dotLine statement = line ++ "\n" ∧
      DotLine.read? line.toList = some (tree.stated statement) := by
  cases statement with
  | node id =>
    refine ⟨"    " ++ (toString id ++ (" [label=\"" ++ (escapeQuoted (tree.caption id) ++ "\"];"))),
      ?_, ?_⟩
    · simp only [dotLine, String.append_assoc]
      rfl
    · simp only [String.toList_append]
      exact DotLine.read?_node id (tree.caption id)
  | edge parent child =>
    refine ⟨"    " ++ (toString parent ++ (" -> " ++ (toString child ++ ";"))), ?_, ?_⟩
    · simp only [dotLine, String.append_assoc]
      rfl
    · simp only [String.toList_append]
      exact DotLine.read?_edge parent child

/-- **What the graph description in writing says** between its first two lines and its last
one: one thing for each statement. -/
theorem reads_statements (tree : Tree α) :
    Reads DotLine.read? (String.join (tree.dotStatements.map tree.dotLine)).toList
      (tree.dotStatements.map tree.stated) :=
  Reads.of_join fun statement _ => tree.read?_dotLine statement

end Tree

end Specificity
