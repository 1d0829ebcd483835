import Mathlib.Data.List.Basic

set_option autoImplicit false

-- Nodes in a list that each name the next one; the last names what comes after the list.

namespace FlintDB.Lib

universe u v

variable {N : Type u} {I : Type v} (name next : N → I)

def firstName (nodes : List N) (last : I) : I := (nodes.head?.map name).getD last

def Linked (last : I) : List N → Prop
  | [] => True
  | node :: nodes => next node = firstName name nodes last ∧ Linked last nodes

structure Relinks (old new : List N) : Prop where
  first : ∀ last, firstName name new last = firstName name old last
  linked : ∀ last, Linked name next last old → Linked name next last new

variable {name next} {old new before after : List N}

@[simp] theorem firstName_append (last : I) :
    firstName name (before ++ after) last = firstName name before (firstName name after last) := by
  cases before <;> simp [firstName]

theorem linked_append {last : I} :
    Linked name next last (before ++ after) ↔
      Linked name next (firstName name after last) before ∧ Linked name next last after := by
  induction before with
  | nil => simp [Linked]
  | cons node nodes ih => simp [Linked, ih, and_assoc]

theorem Relinks.refl (nodes : List N) : Relinks name next nodes nodes := ⟨fun _ => rfl, fun _ => id⟩

theorem Relinks.append {old' new' : List N} (here : Relinks name next old new)
    (there : Relinks name next old' new') : Relinks name next (old ++ old') (new ++ new') where
  first last := by simp [here.first, there.first]
  linked last chain := by
    rw [linked_append] at chain ⊢
    rw [there.first]
    exact ⟨here.linked _ chain.1, there.linked _ chain.2⟩

theorem Relinks.trans {newer : List N} (first : Relinks name next old new)
    (second : Relinks name next new newer) : Relinks name next old newer :=
  ⟨fun last => (second.first last).trans (first.first last),
    fun last chain => second.linked last (first.linked last chain)⟩

end FlintDB.Lib
