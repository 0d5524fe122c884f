import Klados.Drift
import Klados.Interleave

/-!
One thread of a system. What it does among the others is a run of its program beside which the others
drift (`Machine.Reach.thread`); and what its program does alone, the thread does when all the others wait
(`Machine.alone`).
-/
namespace Klados.Effects
open Prog

section
variable {S : Sig} {ε α Req W C E : Type} {m : Machine S ε α Req W C E} {D : W → W → Prop} {t : Nat} {req : Req}
  {ok : Pool S ε α Req W → Action Req C E → Prop} {step : (op : S.Op) → W → Except ε (S.Res op) → W → Prop}

/-- What drifts before a run drifts in the run. -/
theorem Runs.sooner (trans : ∀ u v w, D u v → D v w → D u w) {program : Prog S ε α} {result : Except ε α} {u w v : W}
    (moved : D u w) (ran : Runs D step program w result v) :
    Runs D step program u result v := by
  cases ran with
  | ret more => exact .ret (trans _ _ _ moved more)
  | raise more => exact .raise (trans _ _ _ moved more)
  | call more stepped later => exact .call (trans _ _ _ moved more) stepped later

/-- From the start of a thread to its end: the others and the environment drift, under what the system keeps
    meanwhile. Each call of the thread is a step of the kind that the system allows. -/
theorem Machine.Reach.thread {J : Pool S ε α Req W → Prop} {pool later : Pool S ε α Req W} {program : Prog S ε α}
    {result : Except ε α} (reached : m.Reach ok pool later)
    (own : ∀ pool choice op rest outcome world, ok pool (.call t choice) → pool.threads[t]? = some ⟨req,.call op rest⟩ →
      m.exec t op choice pool.world = some (outcome,world) → step op pool.world outcome world)
    (stays : ∀ pool, ¬ ok pool .reboot) (trans : ∀ u v w, D u v → D v w → D u w)
    (still : ∀ pool, J pool → D pool.world pool.world)
    (others : ∀ pool action next, J pool → ok pool action → (∀ choice, action ≠ .call t choice) →
      m.act pool action = some next → D pool.world next.world)
    (keeps : ∀ pool action next, J pool → ok pool action → m.act pool action = some next → J next) (start : J pool)
    (found : pool.threads[t]? = some ⟨req,program⟩) (ended : later.threads[t]? = some ⟨req,ofOutcome result⟩) :
    Runs D step program pool.world result later.world := by
  induction reached using Relation.ReflTransGen.head_induction_on generalizing program with
  | refl =>
    cases found.symm.trans ended
    cases result with
    | ok value => exact .ret (still _ start)
    | error error => exact .raise (still _ start)
  | @head pool middle next _ ih =>
    obtain ⟨action,allowed,acted⟩ := next
    have kept := keeps pool action middle start allowed acted
    have drifts := others pool action middle start allowed
    cases action with
    | request req' =>
      have moved := drifts (by simp) acted
      cases Option.some.inj acted
      refine (ih kept ?_).sooner trans moved
      obtain ⟨bound,_⟩ := List.getElem?_eq_some_iff.mp found
      rw [List.getElem?_append_left bound]
      exact found
    | call t' choice =>
      have moved := fun others => drifts others acted
      simp only [Machine.act] at acted
      split at acted
      · rename_i req' op rest asked
        obtain ⟨⟨outcome,world⟩,executed,same⟩ := Option.map_eq_some_iff.mp acted
        subst same
        by_cases mine : t' = t
        · subst mine
          cases asked.symm.trans found
          obtain ⟨bound,_⟩ := List.getElem?_eq_some_iff.mp found
          exact .call (still pool start) (own _ _ _ _ _ _ allowed found executed) (ih kept (List.getElem?_set_self bound))
        · refine (ih kept ((List.getElem?_set_ne mine).trans found)).sooner trans (moved ?_)
          rintro choice' same
          cases same
          exact mine rfl
      · cases acted
    | env move =>
      have drifted := drifts (by simp) acted
      obtain ⟨world,moved,same⟩ := Option.map_eq_some_iff.mp acted
      subst same
      exact (ih kept found).sooner trans drifted
    | reboot => exact absurd allowed (stays pool)

/-- A thread that nobody runs beside. -/
theorem Machine.alone {pool : Pool S ε α Req W} {program : Prog S ε α} {result : Except ε α} {v : W}
    (acts : ∀ pool op rest outcome v, pool.threads[t]? = some ⟨req,.call op rest⟩ → step op pool.world outcome v →
      ∃ choice, ok pool (.call t choice) ∧ m.exec t op choice pool.world = some (outcome,v))
    (ran : Does step program pool.world result v) (found : pool.threads[t]? = some ⟨req,program⟩) :
    ∃ later, m.Reach ok pool later ∧ later.world = v ∧ later.threads[t]? = some ⟨req,ofOutcome result⟩ := by
  obtain ⟨world,threads⟩ := pool
  replace ran : Does step program world result v := ran
  induction ran generalizing threads with
  | ret moved => exact ⟨_,.refl,moved,found⟩
  | raise moved => exact ⟨_,.refl,moved,found⟩
  | @call w u x v op next outcome result moved stepped _ ih =>
    subst moved
    obtain ⟨choice,allowed,executed⟩ := acts ⟨w,threads⟩ _ _ _ _ found stepped
    obtain ⟨bound,_⟩ := List.getElem?_eq_some_iff.mp found
    obtain ⟨later,reached,world',ended⟩ := ih (threads.set t ⟨req,next outcome⟩) (List.getElem?_set_self bound)
    refine ⟨later,.head ⟨.call t choice,allowed,?_⟩ reached,world',ended⟩
    simp only at executed
    simp only [Machine.act,found,executed]
    rfl

end
end Klados.Effects
