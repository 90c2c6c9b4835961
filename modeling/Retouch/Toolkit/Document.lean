import Retouch.Syntax.Tokenize
import Retouch.Toolkit.Node

/-! Documents: the tokens of a source with a node each, and what a script put in
their places. Printing goes token by token. A token that was replaced prints its
last replacement; one whose node still agrees with it prints its own text; any
other prints its node.

What a script puts in a place it may go on changing: a node, or an object that it keeps
in its own memory, of which nothing is known but what it looks like at a given time. -/

namespace Retouch.Toolkit
open Syntax

/-- A token of one of the documents (`NodePath`). -/
structure TokenRef where
  document : Nat
  index : Nat
  deriving DecidableEq, Repr

/-- A collection with the number of its document (`Collection`). -/
structure Collection where
  document : Nat
  indices : List Nat
  deriving DecidableEq, Repr

/-- What a script sees without printing: what it keeps for itself, the nodes as they are,
and the collections made so far. -/
structure Scene (M : Type) where
  memory : M
  node : TokenRef → Node
  registers : Array Collection

/-- What a script hands over. -/
inductive Thing (M : Type) where
  | fixed (v : Value)
  /-- The node of a token, as it is when it is looked at. -/
  | node (r : TokenRef)
  /-- Something in the memory of the script, as it is when it is looked at. -/
  | kept (look : M → Thing M)
  | array (items : List (Thing M))

namespace Thing
variable {M : Type}

mutual

/-- The text that a thing prints as (`render`). -/
def render (s : Scene M) : Thing M → Except Fault Wide
  | .fixed v => Toolkit.render v
  | .node r => renderRecord (s.node r).get
  | .kept look => (look s.memory).render s
  | .array items => (renderAll s items).map Wide.join
termination_by structural t => t

def renderAll (s : Scene M) : List (Thing M) → Except Fault (List Wide)
  | [] => .ok []
  | t :: ts => do
    let w ← t.render s
    let ws ← renderAll s ts
    return w :: ws
termination_by structural ts => ts

end

/-- Whether a test that gives the thing was passed. -/
def truthy (memory : M) : Thing M → Bool
  | .fixed v => v.truthy
  | .kept look => (look memory).truthy memory
  | _ => true

def isUndefined : Thing M → Bool
  | .fixed .undefined => true
  | _ => false

end Thing

variable {M : Type}

/-- What can be done to a token: something is put in its place, or a member of its node
is assigned. -/
inductive Write (M : Type) where
  | replaced (t : Thing M)
  | assigned (key : String) (v : Value)

structure Entry (M : Type) where
  token : Token
  node : Node
  replacement : Option (Thing M)

namespace Entry

/-- The entry of a token that nothing was done to (`makeNode`). -/
def ofToken (t : Token) : Entry M := ⟨t, .ofToken t, none⟩

/-- Whether the node still says what the token says. -/
def agrees (e : Entry M) : Bool :=
  if hasName (e.node.get "type") then (e.node.get "name").same (.text e.token.text)
  else (e.node.get "value").same (tokenValue e.token.kind e.token.text)

/-- The text of a token (`print`). -/
def print (s : Scene M) (e : Entry M) : Except Fault Wide :=
  match e.replacement with
  | some t => t.render s
  | none => if e.agrees then .ok (.text e.token.text) else renderRecord e.node.get

def write (e : Entry M) : Write M → Entry M
  | .replaced t => { e with replacement := some t }
  | .assigned key v => { e with node := e.node.put key v }

end Entry

/-- The tokens of a source, and everything that was done to them, in order (`Document`). -/
structure Document (M : Type) where
  entries : Array (Entry M)
  journal : Array (Nat × Write M)

namespace Document

def ofSource (d : Dialect) (source : String) : Document M :=
  ⟨((tokenize d source).map Entry.ofToken).toArray, #[]⟩

/-- The texts of all tokens, one after the other (`Collection.toSource`). -/
def print (doc : Document M) (s : Scene M) : Except Fault Wide :=
  (doc.entries.toList.mapM (Entry.print s)).map Wide.join

def size (doc : Document M) : Nat := doc.entries.size

/-- Every token of the document. -/
def all (doc : Document M) : List Nat := List.range doc.size

def node (doc : Document M) (i : Nat) : Node := (doc.entries[i]?.map Entry.node).getD .empty

/-- Do something to a token; there is nothing to do where there is no token. -/
def write (doc : Document M) (i : Nat) (u : Write M) : Document M :=
  if i < doc.size then ⟨doc.entries.modify i (·.write u), doc.journal.push (i, u)⟩ else doc

@[simp] theorem size_write (doc : Document M) (i : Nat) (u : Write M) :
    (doc.write i u).size = doc.size := by
  unfold write
  split
  · simp [size]
  · rfl

end Document

end Retouch.Toolkit
