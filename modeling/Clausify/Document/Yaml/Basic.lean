import Clausify.Document.Yaml.Meaning
import Clausify.Document.Yaml.Node

/-!
Reading YAML: the value of a node, and the entries of a document, which is one mapping or null.
Keys of one mapping must differ as they are spelled, and a key is no collection. Under the key `<<`
a mapping takes over the entries of others that it does not have itself. What references stand for
is read again for each of them, and a document in which they make up nearly everything is refused.

Most refusals are alike. Only a collection among keys that are compared with the keys of other
mappings is a broken contract, since collections cannot be compared.
-/

namespace Clausify.Document.Yaml

namespace Node

/-- What keys of one mapping must differ in. -/
def spelling : Node → Nat × String
  | scalar _ _ s => (0, s)
  | sequence _ => (1, "")
  | mapping _ => (2, "")
  | reference name _ => (3, name)

/-- Whether a key stands for the entries of other mappings. -/
def isMerge : Node → Bool
  | scalar tag plain s => s = "<<" && ((tag = "" && plain) || tag = "!!merge")
  | _ => false

def isTextScalar (tag : String) (plain : Bool) (s : String) : Bool :=
  if tag = "" then !plain || Kind.ofValue (plainValue s) = .text
  else tag = "!!str" || tag = "!!merge"

def isText : Node → Bool
  | scalar tag plain s => isTextScalar tag plain s
  | reference _ (some (scalar tag plain s)) => isTextScalar tag plain s
  | _ => false

end Node

def hasDuplicate : List (Nat × String) → Bool
  | [] => false
  | k :: rest => rest.contains k || hasDuplicate rest

/-- Why a document is refused. -/
inductive Refusal where
  | malformed
  | collectionKey (type : String)
  deriving DecidableEq, Repr

/-! ## Counting -/

/-- How many nodes were read, how many of them for references, how many references the current
node stands in, and whether the document is refused when all of it is read. -/
structure Tally where
  nodes : Nat := 0
  referred : Nat := 0
  depth : Nat := 0
  refused : Bool := false

/-- Whether references make up too much of a document: ninety-nine of a hundred nodes of a small
document, and less of a large one, down to one of ten. -/
def Tally.isExcessive (t : Tally) : Bool :=
  t.referred > 100 && t.nodes > 1000 &&
    if t.nodes ≤ 400000 then 100 * t.referred > 99 * t.nodes
    else if t.nodes ≥ 4000000 then 10 * t.referred > t.nodes
    else 360000000 * t.referred > (356400000 - 89 * (t.nodes - 400000)) * t.nodes

abbrev Eval := StateT Tally (Except Refusal)

namespace Eval

def refuse {α : Type} : Eval α := throw .malformed

/-- Counts a node. -/
def visit : Eval Unit := do
  modify fun t => { t with
    nodes := t.nodes + 1
    referred := t.referred + (if t.depth > 0 then 1 else 0) }
  if (← get).isExcessive then refuse

/-- Does something inside a reference. -/
def inside {α : Type} (action : Eval α) : Eval α := do
  modify fun t => { t with depth := t.depth + 1 }
  let result ← action
  modify fun t => { t with depth := t.depth - 1 }
  pure result

/-! ## Values -/

abbrev Fields := List (Value × Value)

def setField (key value : Value) (fields : Fields) : Fields :=
  if fields.any fun f => f.1.sameKey key then
    fields.map fun f => if f.1.sameKey key then (key, value) else f
  else fields ++ [(key, value)]

/-- Entries whose keys are texts. -/
def textFields (fields : Fields) : Entries :=
  fields.filterMap fun
    | (.text s, value) => some (s, value)
    | _ => none

/-- The value of a scalar, unless its tag refuses it. -/
def scalar (tag : String) (plain : Bool) (s : String) : Eval Value :=
  match scalarValue tag plain s with
  | some value => pure value
  | none => refuse

/-- A key as it is spelled, unless it is null. A collection is passed over, and the document is
refused in the end. -/
def spelledKey : Nat → Node → Eval (Option Value)
  | 0, _ => refuse
  | fuel + 1, node => do
    visit
    match node with
    | .reference _ (some target) => inside (spelledKey fuel target)
    | .scalar tag plain s =>
      match ← scalar tag plain s with
      | .null => pure none
      | .text s => pure (some (.text s))
      | _ => pure (some (.text s))
    | .reference _ none => refuse
    | _ =>
      modify fun t => { t with refused := true }
      pure none

/-- Requires a key that can be compared with others. -/
def comparable (key : Value) : Eval Unit :=
  if key.isCollection then throw (.collectionKey key.typeText) else pure ()

mutual

def value : Nat → Node → Eval Value
  | 0, _ => refuse
  | fuel + 1, node => do
    visit
    match node with
    | .reference _ (some target) => inside (value fuel target)
    | .reference _ none => refuse
    | .scalar tag plain s => scalar tag plain s
    | .sequence items => return .list (← items.mapM (value fuel))
    | .mapping entries =>
      let spelled := entries.all fun e => e.1.isText
      let (fields, _) ← fields fuel spelled [] none entries
      return if spelled then .record (textFields fields) else .table fields

/-- The key of an entry, as it is spelled or by its value, which is `compared` with others. -/
def key : Nat → Bool → Bool → Node → Eval (Option Value)
  | 0, _, _, _ => refuse
  | fuel + 1, spelled, compared, node =>
    if spelled then spelledKey fuel node
    else do
      let value ← value fuel node
      if compared then comparable value
      if value.isCollection then refuse
      pure (some value)

/-- Adds the entries of a mapping to fields, but for the keys that were seen, if these are kept,
and then those that it takes over from others. -/
def fields : Nat → Bool → Fields → Option (List Value) → List (Node × Node) →
    Eval (Fields × Option (List Value))
  | 0, _, _, _, _ => refuse
  | fuel + 1, spelled, before, seen, entries => do
    if hasDuplicate (entries.map fun e => e.1.spelling) then refuse
    -- the entries of the mapping itself come before those that are merged in
    let (own, seen) ← (entries.filter fun e => !e.1.isMerge).foldlM
      (fun (own, seen) (keyNode, node) => do
        match ← key fuel spelled seen.isSome keyNode with
        | none => pure (own, seen)
        | some name =>
          if seen.any fun names => names.any name.sameKey then pure (own, seen)
          else
            let value ← value fuel node
            pure (setField name value own, seen.map (name :: ·)))
      (before, seen)
    match entries.find? fun e => e.1.isMerge with
    | none => pure (own, seen)
    | some (_, source) =>
      let names ← match seen with
        | some names => pure names
        | none => entries.mapM fun e => do
          let name ← value fuel e.1
          comparable name
          pure name
      let (all, names) ← merged fuel spelled own names source
      pure (all, seen.map fun _ => names)

/-- Adds the entries that are taken over, from one mapping or from several in order. -/
def merged : Nat → Bool → Fields → List Value → Node → Eval (Fields × List Value)
  | 0, _, _, _, _ => refuse
  | fuel + 1, spelled, own, names, source =>
    match source with
    | .sequence items =>
      items.foldlM (fun (own, names) item => mergedFrom fuel spelled own names item) (own, names)
    | source => mergedFrom fuel spelled own names source

/-- Adds the entries that are taken over from one mapping. -/
def mergedFrom : Nat → Bool → Fields → List Value → Node → Eval (Fields × List Value)
  | 0, _, _, _, _ => refuse
  | fuel + 1, spelled, own, names, source => do
    visit
    match source with
    | .mapping entries =>
      let (own, seen) ← fields fuel spelled own (some names) entries
      pure (own, seen.getD names)
    | .reference _ (some (.mapping entries)) =>
      inside do
        visit
        let (own, seen) ← fields fuel spelled own (some names) entries
        pure (own, seen.getD names)
    | _ => refuse

end

end Eval

def parse (text : String) : Except Refusal Entries :=
  match Node.ofText text with
  | none => .error .malformed
  | some none => .ok []
  | some (some (.mapping entries)) => do
    let fuel := 8 * (text.length + 8) * (text.length + 8)
    let ((fields, _), tally) ← Eval.fields fuel true [] none entries { nodes := 2 }
    if tally.refused then .error .malformed else .ok (Eval.textFields fields)
  | some (some (.scalar tag plain s)) =>
    match scalarValue tag plain s with
    | some .null => .ok []
    | _ => .error .malformed
  | some (some _) => .error .malformed

end Clausify.Document.Yaml
