/-! The measure of searches that visit each of finitely many things once. -/
namespace Shading.Search

variable {α β : Type} [DecidableEq β]

def unseen (key : α → β) (things : List α) (seen : List β) : Nat :=
  things.countP fun x => key x ∉ seen

theorem countP_le_of_imp {p q : α → Bool} (h : ∀ x, p x → q x) (xs : List α) :
    xs.countP p ≤ xs.countP q := List.countP_mono_left fun x _ => h x

theorem unseen_le (key : α → β) (things : List α) (seen : List β) (k : β) :
    unseen key things (k :: seen) ≤ unseen key things seen :=
  countP_le_of_imp (fun x => by simp) things

/-- Seeing one of the things leaves fewer. -/
theorem unseen_lt {key : α → β} {things : List α} {seen : List β} {k : β}
    (member : ∃ x ∈ things, key x = k) (fresh : k ∉ seen) :
    unseen key things (k :: seen) < unseen key things seen := by
  obtain ⟨x,hx,rfl⟩ := member
  induction things with
  | nil => simp at hx
  | cons y ys ih =>
    have le := unseen_le key ys seen (key x)
    by_cases h : key y = key x
    · simp only [unseen,List.countP_cons] at le ⊢
      simp [h,fresh]
      simp at le
      omega
    · have hx' : x ∈ ys := by
        rcases List.mem_cons.mp hx with e | e
        · exact absurd (congrArg key e.symm) h
        · exact e
      have lt := ih hx'
      simp only [unseen,List.countP_cons] at lt ⊢
      simp only [List.mem_cons,h,false_or]
      simp only [List.mem_cons] at lt
      omega

end Shading.Search
