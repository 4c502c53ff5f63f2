import Pagewright.Json.Basic

/-! Equality of documents is decidable, so that what is read from a text can be compared. -/

namespace Pagewright

namespace Json

mutual

def same : Json → Json → Bool
  | .null, .null => true
  | .bool a, .bool b => a = b
  | .int a, .int b => a = b
  | .number a, .number b => a = b
  | .string a, .string b => a = b
  | .array a, .array b => sameItems a b
  | .object a, .object b => sameMembers a b
  | .unusable, .unusable => true
  | _, _ => false

def sameItems : List Json → List Json → Bool
  | [], [] => true
  | a :: rest, b :: rest' => same a b && sameItems rest rest'
  | _, _ => false

def sameMembers : List (String × Json) → List (String × Json) → Bool
  | [], [] => true
  | (key, a) :: rest, (key', b) :: rest' => key = key' && same a b && sameMembers rest rest'
  | _, _ => false

end

mutual

theorem same_iff (a b : Json) : same a b ↔ a = b := by
  cases a with
  | array items => cases b <;> simp [same, sameItems_iff items]
  | object members => cases b <;> simp [same, sameMembers_iff members]
  | _ => cases b <;> simp [same]

theorem sameItems_iff (a b : List Json) : sameItems a b ↔ a = b := by
  match a, b with
  | [], [] | [], _ :: _ | _ :: _, [] => simp [sameItems]
  | x :: rest, y :: rest' => simp [sameItems, same_iff x, sameItems_iff rest]

theorem sameMembers_iff (a b : List (String × Json)) : sameMembers a b ↔ a = b := by
  match a, b with
  | [], [] | [], _ :: _ | _ :: _, [] => simp [sameMembers]
  | (key, x) :: rest, (key', y) :: rest' =>
    simp [sameMembers, same_iff x, sameMembers_iff rest, and_assoc]

end

instance : DecidableEq Json := fun a b => decidable_of_iff _ (same_iff a b)

end Json

end Pagewright
