import SchemaTidy.Tree.Basic

/-!
# Equality of groups

Items, elements and groups can be compared, trivia and positions included.
-/

namespace SchemaTidy

mutual

def Item.decEq : (a b : Item) → Decidable (a = b)
  | .token s, .token t => if h : s = t then isTrue (h ▸ rfl) else isFalse (by simpa using h)
  | .group g, .group h =>
      match g.decEq h with
      | isTrue e => isTrue (e ▸ rfl)
      | isFalse e => isFalse (by simpa using e)
  | .token _, .group _ => isFalse nofun
  | .group _, .token _ => isFalse nofun

def Element.decEq : (a b : Element) → Decidable (a = b)
  | ⟨is, c⟩, ⟨js, d⟩ =>
      match itemsDecEq is js with
      | isTrue e => if h : c = d then isTrue (by rw [e, h]) else isFalse (by simp [h])
      | isFalse e => isFalse (by simp [e])

def Group.decEq : (a b : Group) → Decidable (a = b)
  | ⟨o, es, c, k, s⟩, ⟨o', es', c', k', s'⟩ =>
      match elementsDecEq es es' with
      | isTrue e =>
          if h : o = o' ∧ c = c' ∧ k = k' ∧ s = s' then
            isTrue (by obtain ⟨rfl, rfl, rfl, rfl⟩ := h; rw [e])
          else isFalse (by simp_all)
      | isFalse e => isFalse (by simp [e])

def itemsDecEq : (a b : List Item) → Decidable (a = b)
  | [], [] => isTrue rfl
  | i :: is, j :: js =>
      match i.decEq j, itemsDecEq is js with
      | isTrue e, isTrue f => isTrue (by rw [e, f])
      | isFalse e, _ => isFalse (by simp [e])
      | _, isFalse f => isFalse (by simp [f])
  | [], _ :: _ => isFalse nofun
  | _ :: _, [] => isFalse nofun

/-- Decides whether two lists of elements are equal. -/
def elementsDecEq : (a b : List Element) → Decidable (a = b)
  | [], [] => isTrue rfl
  | d :: ds, e :: es =>
      match d.decEq e, elementsDecEq ds es with
      | isTrue p, isTrue q => isTrue (by rw [p, q])
      | isFalse p, _ => isFalse (by simp [p])
      | _, isFalse q => isFalse (by simp [q])
  | [], _ :: _ => isFalse nofun
  | _ :: _, [] => isFalse nofun

end

instance : DecidableEq Item := Item.decEq

instance : DecidableEq Element := Element.decEq

instance : DecidableEq Group := Group.decEq

end SchemaTidy
