import AvroCodec.Codec.Variables

/-!
# Writing with variables

What the code that writes does with its variables. A function has its value in a variable, and there are
variables for the items of an array, the keys and the values of a map, the tag of a union and what is tagged.
Each is found by its name, wherever it was assigned.

What a loop or a union assigns to a variable is part of a container. The container keeps up with what is done
to it, unless the variable held nothing and was given a default. If the variable of the container is assigned
anew in between, then it has nothing to do with the container any more.
-/

namespace AvroCodec

open Code

namespace Variables

/-- Assigns a variable. What it held before is no longer found. -/
def assign (vars : Variables) (name : String) (v : Value) : Variables := (name, v) :: vars

def assignments (name : String) (vars : Variables) : Nat := vars.countP (·.1 == name)

@[grind =] def change (name : String) (v : Value) : Variables → Variables
  | [] => []
  | (n, w) :: others => if n = name then (n, v) :: others else (n, w) :: change name v others

/-- Changes what a variable held at first, if it has not been assigned since. -/
def changeSince (first vars : Variables) (name : String) (v : Value) : Variables :=
  if assignments name vars = assignments name first then change name v vars else vars

end Variables

/-- What running code leaves: the variables, and the effect on the output or a failure. -/
structure Executed where
  vars : Variables
  result : Except CodecError Effect

namespace Executed

def andThen (r : Executed) (next : Variables → Executed) : Executed :=
  match r.result with
  | .error _ => r
  | .ok front =>
    let r' := next r.vars
    ⟨r'.vars, r'.result.map front.andThen⟩

def kept (r : Executed) (name : String) (v : Value) : Value :=
  AvroCodec.kept v ((Variables.lookup name r.vars).getD v)

end Executed

namespace Code

def Subject.place : Subject → Place
  | value place | member place _ => place

namespace Encoder

/-- Works on the variable of a place, given its value and the keys on the way to the place. -/
def withVariable (place : Place) (f : Value → List String → Executed) (vars : Variables) : Executed :=
  match vars.get place.root, vars.keys place.path with
  | .error e, _ | _, .error e => ⟨vars, .error e⟩
  | .ok v, .ok keys => f v keys

def atPlace (place : Place) (f : Value → Variables → Written × Variables) (vars : Variables) : Executed :=
  withVariable place (fun v keys =>
    match v.walk keys with
    | .error e => ⟨vars, .error e⟩
    | .ok x =>
      let (w, vars') := f x vars
      ⟨vars.changeSince vars' place.root (((Value.store (kept x w.value) keys v).toOption).getD v), w.result⟩) vars

/-- Works on values one after the other, each in the variable of a loop. -/
@[grind =] def eachItem (item : String) (body : Variables → Executed) :
    List Value → Variables → (List Value × Except CodecError Effect) × Variables
  | [], vars => (([], .ok .none), vars)
  | v :: rest, vars =>
    let r := body (vars.assign item v)
    match r.result with
    | .error e => ((r.kept item v :: rest, .error e), r.vars)
    | .ok front =>
      let ((rest', result), vars') := eachItem item body rest r.vars
      ((r.kept item v :: rest', result.map front.andThen), vars')

@[grind =] def eachEntry (key value : String) (body : Variables → Executed) :
    List (Value × Value) → Variables → (List (Value × Value) × Except CodecError Effect) × Variables
  | [], vars => (([], .ok .none), vars)
  | (k, v) :: rest, vars =>
    let vars := (vars.assign key k).assign value v
    match Primitive.writeString ((Variables.lookup key vars).getD k) with
    | .error e => (((k, v) :: rest, .error e), vars)
    | .ok bytes =>
      let r := body vars
      match r.result with
      | .error e => (((k, r.kept value v) :: rest, .error e), r.vars)
      | .ok front =>
        let ((rest', result), vars') := eachEntry key value body rest r.vars
        (((k, r.kept value v) :: rest', result.map ((Effect.put bytes).andThen front).andThen), vars')

def executeArray (item : String) (body : Variables → Executed) (v : Value) (vars : Variables) : Written × Variables :=
  match v.elements? with
  | none => (⟨v, .error .wrongKind⟩, vars)
  | some items =>
    let ((items', parts), vars') := eachItem item body items vars
    (⟨replaceElements items' v, writeCounted items.length parts⟩, vars')

/-- The dictionary has a variable that the maps inside it have as well. -/
def executeMap (key value : String) (body : Variables → Executed) (v : Value) (vars : Variables) :
    Written × Variables :=
  let vars := vars.assign "datum" v
  match v with
  | .map entries =>
    let ((entries', parts), vars') := eachEntry key value body entries vars
    (⟨.map entries', writeCounted entries.length parts⟩, vars')
  | .null => (⟨.null, .error .wrongKind⟩, vars)
  | v => (⟨v, .error .notDictionary⟩, vars)

def executeBranch (index : Nat) (body : Variables → Executed) (vars : Variables) : Executed :=
  Executed.andThen ⟨vars, (Varint.encode index).map Effect.put⟩ body

def executePair (scope : WriteScope) (tag data : String) (body : Variables → Executed) (vars : Variables) :
    List Value → Written × Variables
  | [t, payload] =>
    if isTag scope tag t then
      let r := body ((vars.assign tag t).assign data payload)
      (⟨.tuple [t, r.kept data payload], r.result⟩, r.vars)
    else (⟨.tuple [t, payload], .error .wrongKind⟩, vars)
  | items => (⟨.tuple items, .error .invalid⟩, vars)

mutual

/-- What code does to the variables of its function. -/
def execute (scope : WriteScope) : Encoder → Variables → Executed
  | .null, vars => ⟨vars, .ok .none⟩
  | .primitive type place, vars => atPlace place (fun x vars => (only (Primitive.write type) x, vars)) vars
  | .logical type place, vars => atPlace place (fun x vars => (only (writeLogical type) x, vars)) vars
  | .fields parts, vars => executeParts scope parts vars
  | .filled place default next, vars =>
    withVariable place (fun v keys =>
      match fill keys ((Default.value? default).getD .null) v with
      | .error e => ⟨vars, .error e⟩
      | .ok v' =>
        execute scope next (if keys.isEmpty then vars.assign place.root v' else Variables.change place.root v' vars))
          vars
  | .array place item body, vars => atPlace place (executeArray item fun vars => execute scope body vars) vars
  | .enum place symbols, vars => atPlace place (fun x vars => (only (writeSymbol symbols) x, vars)) vars
  | .map place key value body, vars => atPlace place (executeMap key value fun vars => execute scope body vars) vars
  | .union subject tag data branches, vars =>
    withVariable subject.place (fun v _ =>
      match subject.look v with
      | .error e => ⟨vars, .error e⟩
      | .ok (.tuple items) =>
        let (w, vars') := executePair scope tag data (fun vars => executeTagged scope tag branches vars) vars items
        ⟨vars.changeSince vars' subject.place.root (((Value.store w.value subject.keys v).toOption).getD v), w.result⟩
      | .ok _ => executePlain scope subject branches vars) vars
  | .recur name place, vars => atPlace place (fun x vars => ((scope.call name x).called, vars)) vars

def executeParts (scope : WriteScope) : List Encoder → Variables → Executed
  | [], vars => ⟨vars, .ok .none⟩
  | e :: es, vars => (execute scope e vars).andThen fun vars' => executeParts scope es vars'

def executeTagged (scope : WriteScope) (tag : String) : List (Branch Encoder) → Variables → Executed
  | [], vars => ⟨vars, .ok .none⟩
  | ⟨t, index, _, tagged, _⟩ :: rest, vars =>
    if Value.equals (.str (literalText t)) ((Variables.lookup tag vars).getD .null) then
      executeBranch index (fun vars => execute scope tagged vars) vars
    else executeTagged scope tag rest vars

def executePlain (scope : WriteScope) (subject : Subject) : List (Branch Encoder) → Variables → Executed
  | [], vars => ⟨vars, .ok .none⟩
  | ⟨_, index, guard, _, plain⟩ :: rest, vars =>
    withVariable subject.place (fun v _ =>
      match guard.passes subject v with
      | .error e => ⟨vars, .error e⟩
      | .ok true => executeBranch index (fun vars => execute scope plain vars) vars
      | .ok false => executePlain scope subject rest vars) vars

end

/-- What a function with this code does to its value. -/
def applied (scope : WriteScope) (e : Encoder) (v : Value) : Written :=
  let r := execute scope e [("data", v)]
  ⟨(Variables.lookup "data" r.vars).getD v, r.result⟩

end Encoder

end Code

end AvroCodec
