import Mathlib.Data.List.Basic
import Mathlib.Tactic.Cases

/-! XML elements with mixed content. Searches look at the elements of a tree in
document order; what they can see of an element is its tag, its attributes and
the text inside it. -/

namespace XmlTree

variable {S : Type}

inductive Node (S : Type)
  | text (s : List S)
  | element (tag : List S) (attrs : List (List S × List S)) (content : List (Node S))

/-- What a search sees of an element. -/
structure Elem (S : Type) where
  tag : List S
  attrs : List (List S × List S)
  innerText : List S

def Elem.get [DecidableEq S] (el : Elem S) (key : List S) : Option (List S) :=
  el.attrs.lookup key

mutual

def Node.innerText : Node S → List S
  | .text s => s
  | .element _ _ content => innerTexts content

def innerTexts : List (Node S) → List S
  | [] => []
  | n :: ns => n.innerText ++ innerTexts ns

end

mutual

/-- The element itself and all below it, in document order. -/
def Node.elems : Node S → List (Elem S)
  | .text _ => []
  | .element tag attrs content => ⟨tag, attrs, innerTexts content⟩ :: elemsOf content

def elemsOf : List (Node S) → List (Elem S)
  | [] => []
  | n :: ns => n.elems ++ elemsOf ns

end

def Node.content : Node S → List (Node S)
  | .text _ => []
  | .element _ _ content => content

def Node.get [DecidableEq S] (n : Node S) (key : List S) : Option (List S) :=
  match n with
  | .text _ => none
  | .element _ attrs _ => attrs.lookup key

def Node.descendants (n : Node S) : List (Elem S) := elemsOf n.content

mutual

def Node.find (p : Elem S → Bool) : Node S → Option (Node S)
  | .text _ => none
  | .element tag attrs content =>
    if p ⟨tag, attrs, innerTexts content⟩ then some (.element tag attrs content)
    else findIn p content

def findIn (p : Elem S → Bool) : List (Node S) → Option (Node S)
  | [] => none
  | n :: ns => (n.find p).or (findIn p ns)

end

/-- `n'` is `n` with `new` put at some place among its content or below. -/
inductive Inserted (new : Node S) : Node S → Node S → Prop
  | here (tag : List S) (attrs : List (List S × List S)) (before after : List (Node S)) :
    Inserted new (.element tag attrs (before ++ after)) (.element tag attrs (before ++ new :: after))
  | deeper (tag : List S) (attrs : List (List S × List S)) (before after : List (Node S))
    {n n' : Node S} (h : Inserted new n n') :
    Inserted new (.element tag attrs (before ++ n :: after))
      (.element tag attrs (before ++ n' :: after))

theorem innerTexts_append (ns ms : List (Node S)) :
    innerTexts (ns ++ ms) = innerTexts ns ++ innerTexts ms := by
  induction ns with
  | nil => rfl
  | cons n ns ih => rw [List.cons_append, innerTexts, innerTexts, ih, List.append_assoc]

theorem elemsOf_append (ns ms : List (Node S)) : elemsOf (ns ++ ms) = elemsOf ns ++ elemsOf ms := by
  induction ns with
  | nil => rfl
  | cons n ns ih => rw [List.cons_append, elemsOf, elemsOf, ih, List.append_assoc]

variable {new n n' : Node S}

/-- An element without text does not show in the text around it. -/
theorem Inserted.innerText_eq (h : Inserted new n n') (hnew : new.innerText = []) :
    n'.innerText = n.innerText := by
  induction h with
  | here tag attrs before after =>
    simp only [Node.innerText, innerTexts_append, innerTexts, hnew, List.nil_append]
  | deeper tag attrs before after _ ih =>
    simp only [Node.innerText, innerTexts_append, innerTexts, ih]

/-- The elements of the tree are those of before, with the new ones in between. -/
theorem Inserted.descendants_eq (h : Inserted new n n') (hnew : new.innerText = []) :
    ∃ pre post, n.descendants = pre ++ post ∧ n'.descendants = pre ++ new.elems ++ post := by
  induction h with
  | here tag attrs before after =>
    refine ⟨elemsOf before, elemsOf after, elemsOf_append before after, ?_⟩
    simp only [Node.descendants, Node.content, elemsOf_append, elemsOf, List.append_assoc]
  | @deeper tag attrs before after n n' h ih =>
    obtain ⟨pre, post, hn, hn'⟩ := ih
    have htext := h.innerText_eq hnew
    cases n with
    | text s => cases h
    | element tag₁ attrs₁ content =>
      cases n' with
      | text s => cases h
      | element tag₂ attrs₂ content' =>
        have hhead : tag₂ = tag₁ ∧ attrs₂ = attrs₁ := by cases h <;> exact ⟨rfl, rfl⟩
        obtain ⟨rfl, rfl⟩ := hhead
        refine ⟨elemsOf before ++ ⟨tag₂, attrs₂, innerTexts content⟩ :: pre,
          post ++ elemsOf after, ?_, ?_⟩
        · simp only [Node.descendants, Node.content] at hn
          simp only [Node.descendants, Node.content, elemsOf_append, elemsOf, Node.elems, hn]
          simp
        · simp only [Node.descendants, Node.content] at hn'
          simp only [Node.innerText] at htext
          simp only [Node.descendants, Node.content, elemsOf_append, elemsOf, Node.elems, hn',
            htext]
          simp

end XmlTree
