import Mathlib.Data.List.Lemmas
import Mathlib.Tactic.Common

/-!
# Trying candidates in order

A search goes through candidates and stops at the first usable one. Each
candidate on the way is asked for, unless it is known to be missing. `Tried`
relates the candidates to the requests actually made; a search over several
sources is the search over the concatenation of their candidates, as long as
each source is entered only when the ones before it found nothing.
-/
namespace AwaitGlibc.CandidateSearch
variable {γ ρ : Type}

/-- The candidates a search has to look at: up to the first usable one. -/
def upTo (usable : γ → Bool) : List γ → List γ
  | [] => []
  | c :: cs => if usable c then [c] else c :: upTo usable cs

inductive Tried (missing : γ → Prop) (request : γ → ρ) : List γ → List ρ → Prop
  | nil : Tried missing request [] []
  | ask (c : γ) {cs : List γ} {rs : List ρ} :
      Tried missing request cs rs → Tried missing request (c :: cs) (request c :: rs)
  | skip {c : γ} {cs : List γ} {rs : List ρ} :
      missing c → Tried missing request cs rs → Tried missing request (c :: cs) rs

variable {usable : γ → Bool} {missing : γ → Prop} {request : γ → ρ}

variable {cs : List γ} {rs : List ρ}

theorem upTo_append_of_none (h : cs.find? usable = none) (ds : List γ) :
    upTo usable (cs ++ ds) = cs ++ upTo usable ds := by
  induction cs with
  | nil => rfl
  | cons c cs ih =>
    by_cases hc : usable c
    · rw [List.find?_cons_of_pos hc] at h
      cases h
    · rw [List.find?_cons_of_neg hc] at h
      rw [List.cons_append, upTo, if_neg hc, ih h, List.cons_append]

theorem upTo_of_none (h : cs.find? usable = none) : upTo usable cs = cs := by
  have happend := upTo_append_of_none h []
  rwa [List.append_nil, upTo, List.append_nil] at happend

theorem upTo_append_of_some {c : γ} (h : cs.find? usable = some c) (ds : List γ) :
    upTo usable (cs ++ ds) = upTo usable cs := by
  induction cs with
  | nil => cases h
  | cons d cs ih =>
    rw [List.cons_append, upTo, upTo]
    split_ifs with hd
    · rfl
    · rw [List.find?_cons_of_neg hd] at h
      rw [ih h]

theorem Tried.append {ds : List γ} {qs : List ρ} (h₁ : Tried missing request cs rs)
    (h₂ : Tried missing request ds qs) : Tried missing request (cs ++ ds) (rs ++ qs) := by
  induction h₁ with
  | nil => exact h₂
  | ask c _ ih => exact .ask c ih
  | skip hc _ ih => exact .skip hc ih

/-- Candidates that cannot be missing are all asked for, before the others. -/
theorem Tried.of_append {ds : List γ} (h : Tried missing request (cs ++ ds) rs)
    (hm : ∀ c ∈ cs, ¬ missing c) :
    ∃ qs, rs = cs.map request ++ qs ∧ Tried missing request ds qs := by
  induction cs generalizing rs with
  | nil => exact ⟨rs, rfl, h⟩
  | cons c cs ih =>
    have hrest : ∀ d ∈ cs, ¬ missing d := fun d hd => hm d (List.mem_cons_of_mem c hd)
    cases h with
    | ask _ h =>
      obtain ⟨qs, rfl, hqs⟩ := ih h hrest
      exact ⟨qs, rfl, hqs⟩
    | skip hc _ => exact (hm c List.mem_cons_self hc).elim

theorem Tried.mem (h : Tried missing request cs rs) {r : ρ} (hr : r ∈ rs) :
    ∃ c ∈ cs, request c = r := by
  induction h with
  | nil => cases hr
  | ask c _ ih =>
    rcases List.mem_cons.mp hr with rfl | hr
    · exact ⟨c, List.mem_cons_self, rfl⟩
    · obtain ⟨d, hd, rfl⟩ := ih hr
      exact ⟨d, List.mem_cons_of_mem c hd, rfl⟩
  | skip _ _ ih =>
    obtain ⟨d, hd, rfl⟩ := ih hr
    exact ⟨d, List.mem_cons_of_mem _ hd, rfl⟩

theorem upTo_subset : ∀ c ∈ upTo usable cs, c ∈ cs := by
  induction cs with
  | nil => exact fun c hc => hc
  | cons d cs ih =>
    intro c hc
    rw [upTo] at hc
    split_ifs at hc
    · rw [List.mem_singleton.mp hc]
      exact List.mem_cons_self
    · rcases List.mem_cons.mp hc with rfl | hc
      · exact List.mem_cons_self
      · exact List.mem_cons_of_mem d (ih c hc)

theorem Tried.all (request : γ → ρ) (cs : List γ) :
    Tried missing request cs (cs.map request) := by
  induction cs with
  | nil => exact .nil
  | cons c cs ih => exact .ask c ih

end AwaitGlibc.CandidateSearch
