import Retouch.Toolkit.Collection
import Retouch.Toolkit.Kit

/-! Sequences of collection operations. A workbench keeps the collections made so
far in numbered registers, together with the documents they belong to, the toolkit in
use, and the memory of the script. An operation that fails makes no collection.

Some operations call the script back for every token. What it does then is its own
affair: it may look at everything there is, write to any token, perform any operation,
remember something, and in the end it gives an answer or fails. -/

namespace Retouch.Toolkit
open Syntax

/-- What can be put in the place of a token: a thing, or what a builder makes. -/
inductive Material (M : Type) where
  | thing (t : Thing M)
  | built (b : Builder) (arg : Value)

def Material.get {M : Type} : Material M → Except Fault (Thing M)
  | thing t => .ok t
  | built b arg => (b.build arg).map .fixed

/-- What is shown of a node. The places are the line and column of its start and of
its end. -/
structure NodeView where
  type : Value
  raw : Value
  places : List Value
  name : Option Value
  value : Option Value
  deriving Repr

/-- A node as it is shown. -/
def Node.view (n : Node) : Except Fault NodeView := do
  let start ← readField (n.get "loc") "start"
  let startLine ← readField start "line"
  let startColumn ← readField start "column"
  let stop ← readField (n.get "loc") "end"
  let stopLine ← readField stop "line"
  let stopColumn ← readField stop "column"
  return {
    type := n.get "type"
    raw := n.get "raw"
    places := [startLine, startColumn, stopLine, stopColumn]
    name := n.get? "name"
    value := n.get? "value" }

/-- What comes of an operation. -/
inductive Reply where
  | made (size : Nat)
  | counted (size : Nat)
  | nodes (ns : List NodeView)
  | paths (is : List Nat)
  | first (i : Option Nat)
  | same
  | done
  | source (text : Wide)
  | built (v : Value)
  | tag (shown : List String)
  | parser (name : String)
  | failed (f : Fault)
  deriving Repr

mutual

/-- The operations on a collection. A function that is called back is given what there is to
see, the token, and the position of the token in the collection. -/
inductive Operation (M : Type) where
  | find (type condition : Value)
  /-- The same with a function in place of a condition. -/
  | findBy (type : Value) (test : Scene M → TokenRef → Reaction M)
  | filter (test : Scene M → TokenRef → Nat → Reaction M)
  | forEach (visit : Scene M → TokenRef → Nat → Reaction M)
  | element (n : Value)
  | closest (position : Value)
  | size
  | nodes
  | paths
  | first
  | replace (m : Material M)
  /-- The same with a function in place of a thing. -/
  | replaceBy (make : Scene M → TokenRef → Nat → Reaction M)
  | remove
  | replaceFirst (m : Material M)
  | prune
  | assign (key v : Value)
  | source
  | reparse (parser : Option Value)
  | call (v : Value)
  | build (b : Builder) (arg : Value)
  | tag (name : Value)
  | parser

/-- What a script does when it is called back, step by step. Every step tells what the
script remembers from then on. -/
inductive Reaction (M : Type) where
  /-- Give an answer, or fail. -/
  | answer (memory : M) (gives : Except Fault (Thing M))
  /-- Do something to a token. -/
  | write (memory : M) (r : TokenRef) (u : Write M) (next : Scene M → Reaction M)
  /-- Perform an operation on the collection in a register, and see what comes of it. -/
  | perform (memory : M) (register : Nat) (op : Operation M) (next : Scene M → Reply → Reaction M)

end

structure Workbench (M : Type) where
  kit : Kit
  documents : Array (Document M)
  registers : Array Collection
  memory : M

namespace Workbench
variable {M : Type}

/-- The document of a collection. -/
def documentOf (w : Workbench M) (c : Collection) : Document M :=
  w.documents[c.document]?.getD ⟨#[], #[]⟩

def node (w : Workbench M) (r : TokenRef) : Node :=
  (w.documents[r.document]?.map (·.node r.index)).getD .empty

/-- Whether there is such a token. -/
def has (w : Workbench M) (r : TokenRef) : Bool :=
  w.documents[r.document]?.any (r.index < ·.size)

def scene (w : Workbench M) : Scene M := ⟨w.memory, w.node, w.registers⟩

def remember (w : Workbench M) (memory : M) : Workbench M := { w with memory }

/-- Do something to a token. -/
def write (w : Workbench M) (r : TokenRef) (u : Write M) : Workbench M :=
  { w with documents := w.documents.modify r.document (·.write r.index u) }

/-- Do the same to several tokens of a document. -/
def writeAll (w : Workbench M) (document : Nat) (indices : List Nat) (u : Write M) : Workbench M :=
  indices.foldl (fun w i => w.write ⟨document, i⟩ u) w

/-- Keep a collection of a document that is there already. -/
def keep (w : Workbench M) (c : Collection) (indices : List Nat) : Workbench M × Reply :=
  ({ w with registers := w.registers.push ⟨c.document, indices⟩ }, .made indices.length)

/-- Open a source as a new document, with the collection of all its tokens (`j`). -/
def openSource (w : Workbench M) (source : String) : Workbench M × Reply :=
  let doc := Document.ofSource w.kit.dialect source
  ({ w with
      documents := w.documents.push doc
      registers := w.registers.push ⟨w.documents.size, doc.all⟩ }, .made doc.size)

def start (kit : Kit) (source : String) (memory : M) : Workbench M × Reply :=
  openSource ⟨kit, #[], #[], memory⟩ source

/-- Keep what was found, or tell why nothing was. -/
def keepFound (w : Workbench M) (c : Collection) : Except Fault (List Nat) → Workbench M × Reply
  | .ok indices => w.keep c indices
  | .error f => (w, .failed f)

/-- A reply that leaves everything as it is. -/
def answer (w : Workbench M) : Except Fault Reply → Workbench M × Reply
  | .ok reply => (w, reply)
  | .error f => (w, .failed f)

/-- Do something to tokens of a collection if nothing stands in the way. -/
def writeIf (w : Workbench M) (c : Collection) (reply : Reply) :
    Except Fault (List Nat × Write M) → Workbench M × Reply
  | .ok (indices, u) => (w.writeAll c.document indices u, reply)
  | .error f => (w, .failed f)

/-- The first token of a collection that is not empty. -/
def first (doc : Document M) (c : Collection) : Except Fault Nat := do
  match c.indices with
  | [] => .error .noPath
  | i :: _ =>
    doc.reach [i] "node"
    return i

/-- Put a thing in the place of a token, if it is one (`Collection.replaceWith`). -/
def place (w : Workbench M) (r : TokenRef) (t : Thing M) : Workbench M :=
  if t.isUndefined then w else w.write r (.replaced t)

/-- Print a document and open the text. -/
def reopen (w : Workbench M) (doc : Document M) : Workbench M × Reply :=
  match (doc.print w.scene).bind properText with
  | .ok source => w.openSource source
  | .error f => (w, .failed f)

/-! ### Calling back -/

/-- Ask about tokens one after the other, and collect those for which the answer is yes.
The first failure ends it; what was done before stays. -/
def sweep (ask : Workbench M → Nat → Nat → Workbench M × Except Fault Bool) (n : Nat) :
    List Nat → Workbench M → Workbench M × Except Fault (List Nat)
  | [], w => (w, .ok [])
  | i :: rest, w =>
    match ask w i n with
    | (w', .error f) => (w', .error f)
    | (w', .ok kept) =>
      match sweep ask (n + 1) rest w' with
      | (v, .error f) => (v, .error f)
      | (v, .ok more) => (v, .ok (if kept then i :: more else more))

/-- Ask about the tokens of a collection, which have to be there. -/
def ask (w : Workbench M) (c : Collection)
    (about : Workbench M → TokenRef → Nat → Workbench M × Except Fault Bool) :
    Workbench M × Except Fault (List Nat) :=
  w.sweep (fun w i n =>
    if w.has ⟨c.document, i⟩ then about w ⟨c.document, i⟩ n
    else (w, .error (.unreadable "node" false))) 0 c.indices

/-- Whether a test was passed. -/
def verdict (gave : Workbench M × Except Fault (Thing M)) : Workbench M × Except Fault Bool :=
  (gave.1, gave.2.map (·.truthy gave.1.memory))

/-- Put what was given in the place of a token. -/
def placed (r : TokenRef) : Workbench M × Except Fault (Thing M) → Workbench M × Except Fault Bool
  | (w, .ok t) => (w.place r t, .ok true)
  | (w, .error f) => (w, .error f)

/-- The reply of an operation that gives its collection back. -/
def sameAfter (gave : Workbench M × Except Fault (List Nat)) : Workbench M × Reply :=
  gave.1.answer (gave.2.map fun _ => .same)

mutual

/-- One operation on the collection `c`. -/
def apply (w : Workbench M) (c : Collection) : Operation M → Workbench M × Reply
  | .find type condition => w.keepFound c ((w.documentOf c).find c.indices type condition)
  | .findBy type test =>
    let gave := w.ask c fun w r _ =>
      if ((w.node r).get "type").same type then verdict (w.react (test w.scene r))
      else (w, .ok false)
    gave.1.keepFound c gave.2
  | .filter test =>
    let gave := w.ask c fun w r n => verdict (w.react (test w.scene r n))
    gave.1.keepFound c gave.2
  | .forEach visit => sameAfter (w.ask c fun w r n => verdict (w.react (visit w.scene r n)))
  | .element n => w.keepFound c ((w.documentOf c).elementOf c.indices n)
  | .closest position => w.keepFound c ((w.documentOf c).closestTo c.indices position)
  | .size => (w, .counted c.indices.length)
  | .nodes => w.answer do
    (w.documentOf c).reach c.indices "node"
    return .nodes (← c.indices.mapM fun i => ((w.documentOf c).node i).view)
  | .paths => w.answer do
    (w.documentOf c).reach c.indices "node"
    return .paths c.indices
  | .first => w.answer do
    (w.documentOf c).reach (c.indices.take 1) "node"
    return .first c.indices.head?
  | .replace m => w.writeIf c .same do
    let t ← m.get
    (w.documentOf c).reach c.indices "node"
    return (if t.isUndefined then [] else c.indices, .replaced t)
  | .replaceBy make => sameAfter (w.ask c fun w r n => placed r (w.react (make w.scene r n)))
  | .remove => w.writeIf c .same do
    (w.documentOf c).reach c.indices "node"
    return (c.indices, .replaced (.fixed .null))
  | .replaceFirst m => w.writeIf c .done do
    let i ← first (w.documentOf c) c
    let t ← m.get
    return ([i], .replaced (if t.isUndefined then .fixed .null else t))
  | .prune => w.writeIf c .done do
    let i ← first (w.documentOf c) c
    return ([i], .replaced (.fixed .null))
  | .assign key v =>
    if c.indices.isEmpty then (w, .same)
    else w.writeIf c .same do
      (w.documentOf c).reach c.indices "node"
      let key ← textOf key
      return (c.indices, .assigned key.shown v)
  | .source => w.answer do return .source (← (w.documentOf c).print w.scene)
  | .reparse none => w.reopen (w.documentOf c)
  | .reparse (some name) =>
    match Kit.ofValue name with
    | .ok kit => { w with kit }.reopen (w.documentOf c)
    | .error f => (w, .failed f)
  | .call v =>
    match v with
    | .text _ | .loose _ => (w, .done)
    | v => (w, .failed (.notText v.typeName))
  | .build b arg => w.answer do return .built (← b.build arg)
  | .tag name => w.answer do return .tag (shownMember (← w.kit.read? (← textOf name).shown))
  | .parser => (w, .parser w.kit.parser)

/-- What a script that was called back does, and its answer. -/
def react (w : Workbench M) : Reaction M → Workbench M × Except Fault (Thing M)
  | .answer memory gives => (w.remember memory, gives)
  | .write memory r u next =>
    let w := (w.remember memory).write r u
    w.react (next w.scene)
  | .perform memory register op next =>
    let w := w.remember memory
    let gave := match w.registers[register]? with
      | some c => w.apply c op
      | none => (w, .failed .noRegister)
    gave.1.react (next gave.1.scene gave.2)

end

/-- One operation on the collection in a register. -/
def step (w : Workbench M) (register : Nat) (op : Operation M) : Workbench M × Reply :=
  match w.registers[register]? with
  | some c => w.apply c op
  | none => (w, .failed .noRegister)

/-- The workbench after a sequence of operations. -/
def after (w : Workbench M) : List (Nat × Operation M) → Workbench M
  | [] => w
  | (register, op) :: rest => (w.step register op).1.after rest

def run (w : Workbench M) : List (Nat × Operation M) → List Reply
  | [] => []
  | (register, op) :: rest =>
    let (w', reply) := w.step register op
    reply :: w'.run rest

end Workbench

end Retouch.Toolkit
