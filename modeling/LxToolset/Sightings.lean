import Mathlib.Data.List.Basic
import Mathlib.Order.Lattice

/-!
# Tables of what was seen

A table keeps for each key the join of the values that were seen and the stamp of the first one
(`see`). After any sightings the entry of a key depends on the sightings of this key only
(`foldl_record`), it is unchanged exactly when each of them leaves it unchanged (`seeAll_eq_self`),
and its stamp is the old one or that of one of them (`stamp_of_seeAll`).
-/

namespace Sightings

variable {κ α σ : Type*} [SemilatticeSup α]

/-- An entry after a value with its stamp. -/
def see : Option (α × σ) → α × σ → Option (α × σ)
  | none, x => some x
  | some (a, s), x => some (a ⊔ x.1, s)

def seeAll (o : Option (α × σ)) (l : List (α × σ)) : Option (α × σ) :=
  l.foldl see o

variable {o : Option (α × σ)} {x : α × σ} {l : List (α × σ)}

theorem seeAll_some (a : α) (s : σ) (l : List (α × σ)) :
    seeAll (some (a, s)) l = some ((l.map Prod.fst).foldl (· ⊔ ·) a, s) := by
  induction l generalizing a with
  | nil => rfl
  | cons x l ih => exact ih (a ⊔ x.1)

/-- Without an entry, the first sighting gives the stamp. -/
theorem seeAll_none (l : List (α × σ)) :
    seeAll none l = l.head?.map fun x => ((l.map Prod.fst).foldl (· ⊔ ·) x.1, x.2) := by
  rcases l with - | ⟨x, l⟩
  · rfl
  · have hself : x.1 ⊔ x.1 = x.1 := sup_idem x.1
    rw [List.head?_cons, Option.map_some, List.map_cons, List.foldl_cons, hself]
    exact seeAll_some x.1 x.2 l

/-- The stamp was there before, or is that of a sighting. -/
theorem stamp_of_seeAll {a : α} {s : σ} (h : seeAll o l = some (a, s)) :
    (∃ a', o = some (a', s)) ∨ ∃ x ∈ l, x.2 = s := by
  rcases o with - | ⟨a', s'⟩
  · rw [seeAll_none] at h
    obtain ⟨x, hx, hstamp⟩ := Option.map_eq_some_iff.1 h
    exact Or.inr ⟨x, List.mem_of_mem_head? hx, (Prod.mk.inj hstamp).2⟩
  · rw [seeAll_some] at h
    obtain ⟨-, rfl⟩ := Prod.mk.inj (Option.some.inj h)
    exact Or.inl ⟨a', rfl⟩

/-- The same sighting again changes nothing. -/
theorem seeAll_of_forall_eq (hne : l ≠ []) (h : ∀ y ∈ l, y = x) : seeAll o l = see o x := by
  obtain ⟨y, l, rfl⟩ := List.exists_cons_of_ne_nil hne
  obtain rfl := h y List.mem_cons_self
  have hrest : ∀ z ∈ l, z = y := fun z hz => h z (List.mem_cons_of_mem _ hz)
  clear h hne
  have hidem : see (see o y) y = see o y := by
    rcases o with - | ⟨a, s⟩ <;> simp [see]
  induction l with
  | nil => rfl
  | cons z l ih =>
    obtain rfl := hrest z List.mem_cons_self
    have hstep : seeAll o (z :: z :: l) = seeAll o (z :: l) :=
      congrArg (fun o => seeAll o l) hidem
    rw [hstep]
    exact ih fun w hw => hrest w (List.mem_cons_of_mem _ hw)

/-- The joined values are below what all of them are below. -/
theorem foldl_sup_le_iff {l : List α} {a b : α} :
    l.foldl (· ⊔ ·) a ≤ b ↔ a ≤ b ∧ ∀ c ∈ l, c ≤ b := by
  induction l generalizing a with
  | nil => simp
  | cons c l ih => rw [List.foldl_cons, ih, sup_le_iff, List.forall_mem_cons, and_assoc]

/-- An entry is unchanged only by sightings that leave it unchanged each. -/
theorem seeAll_eq_self : seeAll o l = o ↔ ∀ x ∈ l, see o x = o := by
  rcases o with - | ⟨a, s⟩
  · rw [seeAll_none]
    rcases l with - | ⟨x, l⟩
    · simp
    · refine ⟨fun h => by simp at h, fun h => absurd (h x List.mem_cons_self) ?_⟩
      simp [see]
  · have hle : a ≤ (l.map Prod.fst).foldl (· ⊔ ·) a := (foldl_sup_le_iff.1 le_rfl).1
    simp only [seeAll_some, see, Option.some.injEq, Prod.mk.injEq, and_true, sup_eq_left]
    rw [← hle.ge_iff_eq', foldl_sup_le_iff]
    simp

variable [DecidableEq κ]

/-- A table after a sighting of a key. -/
def record (t : κ → Option (α × σ)) (e : κ × α × σ) : κ → Option (α × σ) :=
  Function.update t e.1 (see (t e.1) e.2)

/-- The sightings of a key. -/
def ofKey (l : List (κ × α × σ)) (k : κ) : List (α × σ) :=
  (l.filter fun e => e.1 = k).map Prod.snd

theorem foldl_record (t : κ → Option (α × σ)) (l : List (κ × α × σ)) (k : κ) :
    l.foldl record t k = seeAll (t k) (ofKey l k) := by
  induction l generalizing t with
  | nil => rfl
  | cons e l ih =>
    rw [List.foldl_cons, ih, record]
    by_cases hk : e.1 = k
    · subst hk
      have hfirst : ofKey (e :: l) e.1 = e.2 :: ofKey l e.1 := by simp [ofKey]
      rw [Function.update_self, hfirst]
      rfl
    · have hskip : ofKey (e :: l) k = ofKey l k := by simp [ofKey, hk]
      rw [Function.update_of_ne (Ne.symm hk), hskip]

end Sightings
