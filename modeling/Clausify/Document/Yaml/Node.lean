import Clausify.Document.Yaml.Stream

/-!
Nodes: what the first document of a text says before scalars are given a meaning. Tags are kept for
scalars only. A reference keeps the node it refers to, which is the last one before it under the
name of its anchor; one that stands inside the node it refers to keeps none.
-/

namespace Clausify.Document.Yaml

inductive Node where
  /-- A scalar with its tag, which is empty when there is none. -/
  | scalar (tag : String) (plain : Bool) (text : String)
  | sequence (items : List Node)
  | mapping (entries : List (Node × Node))
  | reference (name : String) (target : Option Node)

/-- The node of what is left out. -/
def Node.absent : Node := .scalar "" true ""

/-- An anchor: its name, its number in the document, and its node once that is known. -/
structure Anchor where
  name : String
  number : Nat
  node : Option Node := none

structure Reader where
  stream : Stream
  /-- What handles stand for. -/
  handles : List (String × String) := []
  /-- The anchors so far, the newest first. -/
  anchors : List Anchor := []

/-- Reading nodes, which may be refused. -/
abbrev Read := StateT Reader Option

namespace Read

def peek : Read Token := fun r =>
  (Stream.peek r.stream).map fun (token, stream) => (token, { r with stream })

def skip : Read Unit := fun r =>
  (Stream.skip r.stream).map fun ((), stream) => ((), { r with stream })

/-! ## Anchors and tags -/

/-- Enters an anchor with its node, if that is known, and gives its number. -/
def enter (name : String) (node : Option Node) : Read Nat := modifyGet fun r =>
  let number := r.anchors.length
  (number, { r with anchors := ⟨name, number, node⟩ :: r.anchors })

/-- Completes an anchor with its node. -/
def complete (number : Nat) (node : Node) : Read Unit := modify fun r =>
  { r with anchors := r.anchors.map fun a => if a.number = number then { a with node } else a }

/-- Reads a node under an anchor, if there is one, which is known inside the node. -/
def anchored (anchor : Option String) (read : Read Node) : Read Node :=
  match anchor with
  | none => read
  | some name => do
    let number ← enter name none
    let node ← read
    complete number node
    pure node

def refer (name : String) : Read Node := do
  match (← get).anchors.find? fun a => a.name = name with
  | none => failure
  | some anchor => pure (.reference name anchor.node)

/-- What the names of the standard tags begin with. -/
def standardStart : String := "tag:yaml.org,2002:"

/-- What a handle stands for; the handles of one and of two marks need no directive. -/
def startOf (handle : String) : Read String := do
  match (← get).handles.find? fun h => h.1 = handle with
  | some (_, start) => pure start
  | none =>
    if handle = "!" then pure "!" else if handle = "!!" then pure standardStart else failure

/-- The tag of a handle and a name, with two marks before a standard name. A single mark is no
tag. -/
def tagOf (handle name : String) : Read String := do
  let start ← if handle = "" then pure "" else startOf handle
  let whole := start ++ name
  if whole = "" then failure
  else if whole = "!" then pure ""
  else if whole.startsWith standardStart then
    pure ("!!" ++ String.ofList (whole.toList.drop standardStart.length))
  else pure whole

/-- What stands before a node: an anchor and a tag, in either order. -/
structure Properties where
  anchor : Option String := none
  tag : Option String := none

def anchor? : Read (Option String) := do
  match ← peek with
  | .anchor name =>
    skip
    pure (some name)
  | _ => pure none

def tag? : Read (Option (String × String)) := do
  match ← peek with
  | .tag handle name =>
    skip
    pure (some (handle, name))
  | _ => pure none

def properties : Read Properties := do
  let before ← anchor?
  let tag ← tag?
  let anchor ← match before with
    | some name => pure (some name)
    | none => if tag.isSome then anchor? else pure none
  match tag with
  | none => pure { anchor }
  | some (handle, name) => pure { anchor, tag := some (← tagOf handle name) }

/-- A scalar under its properties. -/
def scalar (p : Properties) (plain : Bool) (text : String) : Read Node := do
  let node := Node.scalar (p.tag.getD "") plain text
  match p.anchor with
  | none => pure node
  | some name =>
    let _ ← enter name (some node)
    pure node

/-! ## Nodes -/

/-- A node that is left out behind its properties. -/
def bare (p : Properties) : Read Node :=
  if p.anchor.isSome || p.tag.isSome then scalar p true "" else failure

mutual

/-- Reads a node. Only a block may hold blocks, and only the value or the key of an entry may be a
sequence without indentation. -/
def node : Nat → Bool → Bool → Read Node
  | 0, _, _ => failure
  | fuel + 1, block, indentless => do
    match ← peek with
    | .reference name =>
      skip
      refer name
    | _ =>
      -- an anchor and a tag may stand before the node in either order
      let p ← properties
      match ← peek with
      | .blockEntry =>
        if indentless then anchored p.anchor (indentlessItems fuel [])
        else bare p
      | .scalar plain text =>
        skip
        scalar p plain text
      | .openSequence =>
        anchored p.anchor do
          skip
          flowItems fuel true []
      | .openMapping =>
        anchored p.anchor do
          skip
          flowEntries fuel true []
      | .blockSequence =>
        if block then
          anchored p.anchor do
            skip
            blockItems fuel []
        else bare p
      | .blockMapping =>
        if block then
          anchored p.anchor do
            skip
            blockEntries fuel []
        else bare p
      | _ => bare p

/-- Reads a node, unless one of some tokens stands in its place. -/
def nodeUnless : Nat → Bool → Bool → List Token → Read Node
  | 0, _, _, _ => failure
  | fuel + 1, block, indentless, tokens => do
    if tokens.contains (← peek) then pure .absent else node fuel block indentless

def blockItems : Nat → List Node → Read Node
  | 0, _ => failure
  | fuel + 1, done => do
    match ← peek with
    | .blockEntry =>
      skip
      let item ← nodeUnless fuel true false [.blockEntry, .blockEnd]
      blockItems fuel (item :: done)
    | .blockEnd =>
      skip
      pure (.sequence done.reverse)
    | _ => failure

/-- Reads the items of a block sequence without indentation, which ends without a mark. -/
def indentlessItems : Nat → List Node → Read Node
  | 0, _ => failure
  | fuel + 1, done => do
    match ← peek with
    | .blockEntry =>
      skip
      let item ← nodeUnless fuel true false [.blockEntry, .key, .value, .blockEnd]
      indentlessItems fuel (item :: done)
    | _ => pure (.sequence done.reverse)

def blockEntries : Nat → List (Node × Node) → Read Node
  | 0, _ => failure
  | fuel + 1, done => do
    match ← peek with
    | .key =>
      skip
      let key ← nodeUnless fuel true true [.key, .value, .blockEnd]
      let value ← blockValue fuel
      blockEntries fuel ((key, value) :: done)
    | .blockEnd =>
      skip
      pure (.mapping done.reverse)
    | _ => failure

/-- Reads the value of an entry of a block mapping, which may be left out. -/
def blockValue : Nat → Read Node
  | 0 => failure
  | fuel + 1 => do
    match ← peek with
    | .value =>
      skip
      nodeUnless fuel true true [.key, .value, .blockEnd]
    | _ => pure .absent

/-- Reads the items of a bracketed sequence, commas between them. An item with the mark of a key is
a mapping of one entry. -/
def flowItems : Nat → Bool → List Node → Read Node
  | 0, _, _ => failure
  | fuel + 1, first, done => do
    if !first && (← peek) = .flowEntry then skip
    else if !first && (← peek) ≠ .closeSequence then failure
    match ← peek with
    | .closeSequence =>
      skip
      pure (.sequence done.reverse)
    | .key =>
      skip
      let entry ← flowPair fuel
      flowItems fuel false (.mapping [entry] :: done)
    | _ =>
      let item ← node fuel false false
      flowItems fuel false (item :: done)

/-- Reads the only entry of a mapping in a bracketed sequence. A token that takes the place of the
key is passed over. -/
def flowPair : Nat → Read (Node × Node)
  | 0 => failure
  | fuel + 1 => do
    let key ←
      if [.value, .flowEntry, .closeSequence].contains (← peek) then do
        skip
        pure Node.absent
      else node fuel false false
    let value ← flowValue fuel .closeSequence
    pure (key, value)

/-- Reads the value of an entry inside brackets, which may be left out before a comma and before
the closing bracket. -/
def flowValue : Nat → Token → Read Node
  | 0, _ => failure
  | fuel + 1, close => do
    match ← peek with
    | .value =>
      skip
      nodeUnless fuel false false [.flowEntry, close]
    | _ => pure .absent

/-- Reads the entries of a bracketed mapping, commas between them. What has no mark of a key is a
key without a value. -/
def flowEntries : Nat → Bool → List (Node × Node) → Read Node
  | 0, _, _ => failure
  | fuel + 1, first, done => do
    if !first && (← peek) = .flowEntry then skip
    else if !first && (← peek) ≠ .closeMapping then failure
    match ← peek with
    | .closeMapping =>
      skip
      pure (.mapping done.reverse)
    | .key =>
      skip
      let key ← nodeUnless fuel false false [.value, .flowEntry, .closeMapping]
      let value ← flowValue fuel .closeMapping
      flowEntries fuel false ((key, value) :: done)
    | _ =>
      let key ← node fuel false false
      flowEntries fuel false ((key, .absent) :: done)

end

/-! ## Documents -/

/-- Reads directives; at most one may name a version, and each handle is named once. -/
def directives : Nat → Bool → Read Unit
  | 0, _ => failure
  | fuel + 1, versioned => do
    match ← peek with
    | .version major minor =>
      if versioned || major ≠ 1 || minor ≠ 1 then failure
      skip
      directives fuel true
    | .handle name start =>
      if (← get).handles.any fun h => h.1 = name then failure
      modify fun r => { r with handles := r.handles ++ [(name, start)] }
      skip
      directives fuel versioned
    | _ => pure ()

/-- Reads the node of a document behind its start. -/
def content (fuel : Nat) : Read Node := do
  match ← peek with
  | .version _ _ | .handle _ _ | .documentStart | .documentEnd | .streamEnd => pure .absent
  | _ => node fuel true false

/-- Reads the first document, if there is one, and looks at what follows it. -/
def document (fuel : Nat) : Read (Option Node) := do
  if (← peek) ≠ .streamStart then failure
  skip
  let node ← match ← peek with
    | .streamEnd => return none
    | .version _ _ | .handle _ _ | .documentStart => do
      directives fuel false
      if (← peek) ≠ .documentStart then failure
      skip
      content fuel
    | _ => node fuel true false
  let _ ← peek
  pure (some node)

end Read

/-- The node of the first document of a text, or none in an empty text. -/
def Node.ofText (text : String) : Option (Option Node) :=
  match Stream.ofText text with
  | none => none
  | some stream => (Read.document (8 * text.length + 64) { stream }).map Prod.fst

end Clausify.Document.Yaml
