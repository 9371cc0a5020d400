import RoleLottery.Json.Token

/-!
# Reading JSON

The tree is built in one pass over the tokens, with the containers that are still open on a stack,
so that values may be nested to any depth.
-/

namespace RoleLottery.Json

/-- A container that is still open, with its parts so far, the last one first. -/
inductive Frame
  | items (found : List Json)
  /-- The object waits for a key. -/
  | members (found : List (Option String × Json))
  /-- The object waits for the value of a key. -/
  | member (found : List (Option String × Json)) (key : Option String)

inductive Awaited
  | value
  | firstItem
  | key
  | firstKey
  | colon
  | separator (complete : Json)

structure State where
  awaited : Awaited
  frames : List Frame

def State.open? (frames : List Frame) : Token → Option State
  | .leaf value => some ⟨.separator value, frames⟩
  | .openArray => some ⟨.firstItem, .items [] :: frames⟩
  | .openObject => some ⟨.firstKey, .members [] :: frames⟩
  | _ => none

def State.key? (frames : List Frame) : Token → Option State
  | .leaf (.string key) =>
    match frames with
    | .members found :: rest => some ⟨.colon, .member found key :: rest⟩
    | _ => none
  | _ => none

def State.close? (complete : Json) (frames : List Frame) (token : Token) : Option State :=
  match token, frames with
  | .comma, .items found :: rest => some ⟨.value, .items (complete :: found) :: rest⟩
  | .closeArray, .items found :: rest =>
    some ⟨.separator (.array (complete :: found).reverse), rest⟩
  | .comma, .member found key :: rest => some ⟨.key, .members ((key, complete) :: found) :: rest⟩
  | .closeObject, .member found key :: rest =>
    some ⟨.separator (.object ((key, complete) :: found).reverse), rest⟩
  | _, _ => none

def State.step? (s : State) (token : Token) : Option State :=
  match s.awaited, token, s.frames with
  | .firstItem, .closeArray, .items _ :: rest => some ⟨.separator (.array []), rest⟩
  | .firstKey, .closeObject, .members _ :: rest => some ⟨.separator (.object []), rest⟩
  | .value, token, frames => State.open? frames token
  | .firstItem, token, frames => State.open? frames token
  | .key, token, frames => State.key? frames token
  | .firstKey, token, frames => State.key? frames token
  | .colon, .colon, frames => some ⟨.value, frames⟩
  | .separator complete, token, frames => State.close? complete frames token
  | _, _, _ => none

/-- One JSON value with nothing but white space around it. -/
def parse? (text : String) : Option Json := do
  let tokens ← tokenize text.toList
  match ← tokens.foldlM State.step? ⟨.value, []⟩ with
  | ⟨.separator complete, []⟩ => some complete
  | _ => none

end RoleLottery.Json
