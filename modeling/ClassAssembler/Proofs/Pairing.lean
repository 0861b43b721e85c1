import Mathlib.Data.List.Forall2

/-!
# Lists that are related element by element

Rows of tables, attributes and instructions are compared one by one with what they are made of.
These are the facts about such pairings that the comparison of a method with its code needs.
-/

namespace ClassAssembler

open List

variable {α β γ : Type}

theorem exists_of_forall₂ {R : α → β → Prop} {as : List α} {bs : List β}
    (h : Forall₂ R as bs) {b : β} (hb : b ∈ bs) : ∃ a ∈ as, R a b := by
  induction h with
  | nil => cases hb
  | @cons a c as bs hac _ ih =>
    rcases mem_cons.1 hb with rfl | hb
    · exact ⟨a, mem_cons_self, hac⟩
    · obtain ⟨a', ha', h⟩ := ih hb
      exact ⟨a', mem_cons_of_mem a ha', h⟩

theorem exists_of_forall₂_left {R : α → β → Prop} {as : List α} {bs : List β}
    (h : Forall₂ R as bs) {a : α} (ha : a ∈ as) : ∃ b ∈ bs, R a b := by
  induction h with
  | nil => cases ha
  | @cons c b as bs hcb _ ih =>
    rcases mem_cons.1 ha with rfl | ha
    · exact ⟨b, mem_cons_self, hcb⟩
    · obtain ⟨b', hb', h⟩ := ih ha
      exact ⟨b', mem_cons_of_mem b hb', h⟩

theorem exists_getElem?_of_forall₂ {R : α → β → Prop} {as : List α} {bs : List β}
    (h : Forall₂ R as bs) {i : Nat} {a : α} (ha : as[i]? = some a) :
    ∃ b, bs[i]? = some b ∧ R a b := by
  induction h generalizing i with
  | nil => cases ha
  | @cons c b as bs hcb _ ih =>
    cases i with
    | zero =>
      cases ha
      exact ⟨b, rfl, hcb⟩
    | succ i => exact ih ha

theorem exists_of_forall₂_append {R : α → β → Prop} {xs ys : List α} {zs : List β}
    (h : Forall₂ R (xs ++ ys) zs) :
    ∃ as bs, zs = as ++ bs ∧ Forall₂ R xs as ∧ Forall₂ R ys bs := by
  induction xs generalizing zs with
  | nil => exact ⟨[], zs, rfl, .nil, h⟩
  | cons x xs ih =>
    obtain ⟨z, zs, hz, hzs, rfl⟩ := forall₂_cons_left_iff.1 h
    obtain ⟨as, bs, rfl, has, hbs⟩ := ih hzs
    exact ⟨z :: as, bs, rfl, .cons hz has, hbs⟩

theorem eq_map_of_forall₂ {R : α → β → Prop} {f : α → β} {as : List α} {bs : List β}
    (h : Forall₂ R as bs) (hR : ∀ a ∈ as, ∀ b, R a b → b = f a) : bs = as.map f := by
  induction h with
  | nil => rfl
  | @cons a b as bs hab _ ih =>
    rw [map_cons, ← hR a mem_cons_self b hab,
      ← ih fun c hc => hR c (mem_cons_of_mem a hc)]

theorem forall₂_trans {R : α → β → Prop} {S : β → γ → Prop} {T : α → γ → Prop}
    {as : List α} {bs : List β} {cs : List γ} (h : Forall₂ R as bs) (h' : Forall₂ S bs cs)
    (hT : ∀ a ∈ as, ∀ b c, R a b → S b c → T a c) : Forall₂ T as cs := by
  induction h generalizing cs with
  | nil =>
    cases h'
    exact .nil
  | @cons a b as bs hab _ ih =>
    cases h' with
    | cons hbc hrest =>
      exact .cons (hT a mem_cons_self b _ hab hbc)
        (ih hrest fun a' ha' => hT a' (mem_cons_of_mem a ha'))

theorem forall₂_mem {R S : α → β → Prop} {as : List α} {bs : List β}
    (h : Forall₂ R as bs) (hS : ∀ a ∈ as, ∀ b, R a b → S a b) : Forall₂ S as bs := by
  induction h with
  | nil => exact .nil
  | @cons a b as bs hab _ ih =>
    exact .cons (hS a mem_cons_self b hab) (ih fun a' ha' => hS a' (mem_cons_of_mem a ha'))

theorem forall₂_set {R S : α → β → Prop} {as : List α} {bs : List β} {i : Nat} {c : β}
    (h : Forall₂ R as bs) (hS : ∀ a b, R a b → S a b)
    (hc : ∀ a b, bs[i]? = some b → R a b → S a c) : Forall₂ S as (bs.set i c) := by
  induction h generalizing i with
  | nil => exact .nil
  | cons hab htail ih =>
    cases i with
    | zero => exact .cons (hc _ _ rfl hab) (htail.imp hS)
    | succ i => exact .cons (hS _ _ hab) (ih hc)

end ClassAssembler
