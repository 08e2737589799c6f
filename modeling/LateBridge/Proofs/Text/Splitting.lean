import Mathlib.Data.List.Forall2
import Mathlib.Data.List.TakeWhile

/-!
# Proofs/Text/Splitting — texts that split in one way

A text can be read back from a row of pieces if the end of each piece can be told.  It can where the
next character is of another kind than those of the piece (`append_inj_of_all`), and so for the
digits of a number; and then for pieces with separators between them (`separated_inj`).
-/

namespace LateBridge.Text

variable {α β γ : Type*}

/-! ## Pieces of a kind -/

/-- **Elements of a kind and a rest that starts with none of it** are found again in the whole. -/
theorem append_inj_of_all {p : γ → Bool} {front front' rest rest' : List γ}
    (hfront : ∀ c ∈ front, p c = true) (hfront' : ∀ c ∈ front', p c = true)
    (hrest : ∀ c ∈ rest.head?, p c = false) (hrest' : ∀ c ∈ rest'.head?, p c = false)
    (h : front ++ rest = front' ++ rest') : front = front' ∧ rest = rest' := by
  have hstop (l : List γ) (hl : ∀ c ∈ l.head?, p c = false) : l.takeWhile p = [] := by
    cases l with
    | nil => rfl
    | cons c l => exact List.takeWhile_cons_of_neg (by simp [hl c rfl])
  have htake := congrArg (List.takeWhile p) h
  rw [List.takeWhile_append_of_pos hfront, List.takeWhile_append_of_pos hfront', hstop rest hrest,
    hstop rest' hrest', List.append_nil, List.append_nil] at htake
  exact ⟨htake, List.append_cancel_left (htake ▸ h)⟩

/-! ## Pieces with separators -/

/-- **A rest in front of which a piece ends**: it is empty or starts with a mark. -/
def Ends (marks rest : List γ) : Prop := ∀ c ∈ rest.head?, c ∈ marks

theorem ends_nil (marks : List γ) : Ends marks [] := fun _ h => nomatch h

theorem ends_cons {marks : List γ} {c : γ} {rest : List γ} :
    Ends marks (c :: rest) ↔ c ∈ marks := by
  simp [Ends]

theorem Ends.mono {marks marks' rest : List γ} (h : Ends marks rest) (hsub : marks ⊆ marks') :
    Ends marks' rest := fun c hc => hsub (h c hc)

/-- **Pieces with separators between them can be read off one by one**, if each one can in front of
the separator and of what follows the last. -/
theorem separated_inj {f : α → List γ} {g : β → List γ} {R : α → β → Prop} (marks : List γ)
    {sep : γ} (hsep : sep ∈ marks) {xs : List α} {ys : List β}
    (hpiece : ∀ x ∈ xs, ∀ y ∈ ys, ∀ rest rest', Ends marks rest → Ends marks rest' →
      f x ++ rest = g y ++ rest' → R x y ∧ rest = rest')
    (hxs : xs ≠ []) (hys : ys ≠ []) {rest rest' : List γ} (hrest : Ends marks rest)
    (hrest' : Ends marks rest') (hne : sep ∉ rest.head?) (hne' : sep ∉ rest'.head?)
    (h : [sep].intercalate (xs.map f) ++ rest = [sep].intercalate (ys.map g) ++ rest') :
    List.Forall₂ R xs ys ∧ rest = rest' := by
  have hgoes (more : List γ) : Ends marks (sep :: more) := ends_cons.mpr hsep
  induction xs generalizing ys with
  | nil => exact absurd rfl hxs
  | cons x xs ih =>
    obtain ⟨y, ys, rfl⟩ := List.exists_cons_of_ne_nil hys
    have hfirst := hpiece x List.mem_cons_self y List.mem_cons_self
    rcases xs with _ | ⟨x', xs⟩ <;> rcases ys with _ | ⟨y', ys⟩ <;>
      simp only [List.map_cons, List.map_nil, List.intercalate_singleton,
        List.intercalate_cons_cons, List.append_assoc, List.singleton_append] at h
    · obtain ⟨hxy, hrests⟩ := hfirst _ _ hrest hrest' h
      exact ⟨.cons hxy .nil, hrests⟩
    · obtain ⟨-, rfl⟩ := hfirst _ _ hrest (hgoes _) h
      exact absurd rfl hne
    · obtain ⟨-, rfl⟩ := hfirst _ _ (hgoes _) hrest' h
      exact absurd rfl hne'
    · obtain ⟨hxy, hmore⟩ := hfirst _ _ (hgoes _) (hgoes _) h
      obtain ⟨hall, hrests⟩ := ih
        (fun a ha b hb => hpiece a (List.mem_cons_of_mem x ha) b (List.mem_cons_of_mem y hb))
        (List.cons_ne_nil _ _) (List.cons_ne_nil _ _) (List.cons.inj hmore).2
      exact ⟨.cons hxy hall, hrests⟩

/-! ## Decimal digits -/

theorem toList_toString (n : Nat) : (toString n).toList = Nat.toDigits 10 n := by
  rw [Nat.toString_eq_repr, Nat.toList_repr]

theorem isDigit_of_mem_digits {n : Nat} : ∀ c ∈ Nat.toDigits 10 n, c.isDigit = true :=
  fun _ => Nat.isDigit_of_mem_toDigits (by decide) (by decide)

theorem not_mem_digits {c : Char} (h : c.isDigit = false) (n : Nat) : c ∉ Nat.toDigits 10 n :=
  fun hmem => Bool.false_ne_true (h.symm.trans (isDigit_of_mem_digits c hmem))

theorem digits_injective {m n : Nat} (h : Nat.toDigits 10 m = Nat.toDigits 10 n) : m = n := by
  rw [← Nat.ofDigitChars_ten_toDigits (n := m), h, Nat.ofDigitChars_ten_toDigits]

end LateBridge.Text
