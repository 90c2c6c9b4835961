/-! Documents of the configuration language as trees, built up from headers and
assignments. A table can be opened once; one that a dotted key or an inline value
made is closed; one that only came about on the way to another may still be
opened. -/

namespace Retouch.Toml

/-- How a table came about. -/
inductive Origin where
  /-- On the way to a deeper table. -/
  | implied
  /-- By a header of its own. -/
  | header
  /-- By a dotted key. -/
  | dotted
  /-- As a value. -/
  | inline
  deriving DecidableEq, Repr

inductive Tree where
  | text (s : String)
  /-- A number, truth value or date. -/
  | scalar
  | array (items : List Tree)
  /-- The tables of a repeated header, the last one first. -/
  | tables (items : List Tree)
  | table (origin : Origin) (fields : List (String × Tree))
  deriving Repr, Inhabited

abbrev Fields := List (String × Tree)

def Fields.get? (fs : Fields) (key : String) : Option Tree := (fs.find? (·.1 = key)).map (·.2)

/-- Replace the field of a key, or add it at the end. -/
def Fields.put (fs : Fields) (key : String) (t : Tree) : Fields :=
  if fs.any (·.1 = key) then fs.map fun f => if f.1 = key then (key, t) else f
  else fs ++ [(key, t)]

/-- Assign a value under a dotted key. The table that takes the value must be one
that dotted keys made; on the way there, implied and repeated tables may be
passed. -/
def assign (fs : Fields) (key : List String) (v : Tree) : Option Fields :=
  match key with
  | [] => none
  | [k] => if fs.any (·.1 = k) then none else some (fs ++ [(k, v)])
  | k :: k' :: ks =>
    match fs.get? k with
    | none => (assign [] (k' :: ks) v).map fun inner => fs ++ [(k, .table .dotted inner)]
    | some (.table .dotted inner) =>
      (assign inner (k' :: ks) v).map fun inner' => fs.put k (.table .dotted inner')
    | some (.table .implied inner) =>
      if ks.isEmpty then none
      else (assign inner (k' :: ks) v).map fun inner' => fs.put k (.table .implied inner')
    | some (.tables (.table origin inner :: earlier)) =>
      if ks.isEmpty then none
      else
        (assign inner (k' :: ks) v).map fun inner' =>
          fs.put k (.tables (.table origin inner' :: earlier))
    | some _ => none

/-- Open the table of a header. -/
def openTable (fs : Fields) (key : List String) : Option Fields :=
  match key with
  | [] => none
  | [k] =>
    match fs.get? k with
    | none => some (fs ++ [(k, .table .header [])])
    | some (.table .implied inner) => some (fs.put k (.table .header inner))
    | some _ => none
  | k :: ks =>
    match fs.get? k with
    | none => (openTable [] ks).map fun inner => fs ++ [(k, .table .implied inner)]
    | some (.table .inline _) => none
    | some (.table origin inner) =>
      (openTable inner ks).map fun inner' => fs.put k (.table origin inner')
    | some (.tables (.table origin inner :: earlier)) =>
      (openTable inner ks).map fun inner' => fs.put k (.tables (.table origin inner' :: earlier))
    | some _ => none

/-- Open one more table of a repeated header. -/
def openRepeated (fs : Fields) (key : List String) : Option Fields :=
  match key with
  | [] => none
  | [k] =>
    match fs.get? k with
    | none => some (fs ++ [(k, .tables [.table .header []])])
    | some (.tables items) => some (fs.put k (.tables (.table .header [] :: items)))
    | some _ => none
  | k :: ks =>
    match fs.get? k with
    | none => (openRepeated [] ks).map fun inner => fs ++ [(k, .table .implied inner)]
    | some (.table .inline _) => none
    | some (.table origin inner) =>
      (openRepeated inner ks).map fun inner' => fs.put k (.table origin inner')
    | some (.tables (.table origin inner :: earlier)) =>
      (openRepeated inner ks).map fun inner' => fs.put k (.tables (.table origin inner' :: earlier))
    | some _ => none

/-- Assign inside the table that the last header opened. -/
def assignUnder (fs : Fields) (header key : List String) (v : Tree) : Option Fields :=
  match header with
  | [] => assign fs key v
  | k :: ks =>
    match fs.get? k with
    | some (.table origin inner) =>
      (assignUnder inner ks key v).map fun inner' => fs.put k (.table origin inner')
    | some (.tables (.table origin inner :: earlier)) =>
      (assignUnder inner ks key v).map fun inner' =>
        fs.put k (.tables (.table origin inner' :: earlier))
    | _ => none

/-- One statement of a document. -/
inductive Statement where
  | header (key : List String)
  | repeated (key : List String)
  | assignment (key : List String) (value : Tree)
  deriving Repr

/-- The tree of a list of statements; `none` when they contradict each other. -/
def build (fs : Fields) (header : List String) : List Statement → Option Fields
  | [] => some fs
  | .header key :: rest => (openTable fs key).bind fun fs' => build fs' key rest
  | .repeated key :: rest => (openRepeated fs key).bind fun fs' => build fs' key rest
  | .assignment key v :: rest =>
    (assignUnder fs header key v).bind fun fs' => build fs' header rest

end Retouch.Toml
