import Klados.Tables
import Klados.Engine
import Mathlib.Algebra.BigOperators.Group.List.Basic
import Mathlib.Algebra.Group.Prod
import Mathlib.Algebra.Field.Rat
import Mathlib.Data.List.Induction

/-!
What the rows of the usage table add up to: an upsert adds its amounts to its project, and the
accumulator of a tick holds for each project its share of the instances that were counted.
-/
namespace Klados

/-- `vcpu_s` and `ram_gib_s` of the project; no row is no usage. -/
def usageOf (rows : List UsageRow) (pid : Id) : Rat × Rat :=
  match rows.find? (·.project_id = pid) with
  | some row => (row.vcpu_s,row.ram_gib_s)
  | none => 0

/-- What an upsert adds to the project. -/
def UsageRow.share (new : UsageRow) (pid : Id) : Rat × Rat :=
  if new.project_id = pid then (new.vcpu_s,new.ram_gib_s) else 0

/-- What the entries of an accumulator hold for the project. -/
def shareOf (accr : List (Id × Rat × Rat)) (pid : Id) : Rat × Rat :=
  (accr.map fun entry => if entry.1 = pid then entry.2 else 0).sum

section
variable {rows : List UsageRow} {new : UsageRow} {pid : Id}

theorem usageOf_accrueUsage : usageOf (accrueUsage rows new) pid = usageOf rows pid + new.share pid := by
  unfold accrueUsage
  split
  · rename_i there
    have keys : ∀ row : UsageRow, (if row.project_id = new.project_id then
        { row with vcpu_s := row.vcpu_s + new.vcpu_s, ram_gib_s := row.ram_gib_s + new.ram_gib_s,
                   updated_at := new.updated_at } else row).project_id = row.project_id := by
      intro row
      split <;> rfl
    simp only [usageOf,List.find?_map,Function.comp_def,keys]
    cases found : rows.find? (·.project_id = pid) with
    | none =>
      have other : new.project_id ≠ pid := by
        rintro rfl
        obtain ⟨row,member,same⟩ := List.any_eq_true.mp there
        have absent := List.find?_eq_none.mp found row member
        exact absent same
      simp [UsageRow.share,other]
    | some row =>
      have own : row.project_id = pid := by simpa using List.find?_some found
      by_cases same : new.project_id = pid
      · simp [UsageRow.share,same,own]
      · simp [UsageRow.share,same,own,Ne.symm same]
  · rename_i absent
    simp only [usageOf,List.find?_append]
    cases found : rows.find? (·.project_id = pid) with
    | none => 
      by_cases same : new.project_id = pid <;> simp [UsageRow.share,same]
    | some row =>
      have own : row.project_id = pid := by simpa using List.find?_some found
      have other : new.project_id ≠ pid := by
        rintro rfl
        exact absent (List.any_eq_true.mpr ⟨row,List.mem_of_find?_eq_some found,by simp [own]⟩)
      simp [UsageRow.share,other]

theorem usageOf_foldl (accrued : List UsageRow) : usageOf (accrued.foldl accrueUsage rows) pid =
    usageOf rows pid + (accrued.map (·.share pid)).sum := by
  induction accrued generalizing rows with
  | nil => simp
  | cons new rest ih =>
    rw [List.foldl_cons,ih,usageOf_accrueUsage,List.map_cons,List.sum_cons,add_assoc]

end

section
variable {accr : List (Id × Rat × Rat)} {pid : Id} {v g : Rat}

/-- A project that has an entry keeps the one it has, and another one gets one. -/
theorem accumulate_keys : (accumulate accr pid v g).map Prod.fst =
    if pid ∈ accr.map Prod.fst then accr.map Prod.fst else accr.map Prod.fst ++ [pid] := by
  have known : accr.any (·.1 = pid) = true ↔ pid ∈ accr.map Prod.fst := by simp
  unfold accumulate
  by_cases there : accr.any (·.1 = pid) = true
  · rw [if_pos there,if_pos (known.mp there),List.map_map]
    apply List.map_congr_left
    intro entry _
    by_cases same : entry.1 = pid <;> simp [same]
  · rw [if_neg there,if_neg (fun member => there (known.mpr member)),List.map_append]
    rfl

theorem accumulate_nodup (distinct : (accr.map Prod.fst).Nodup) : ((accumulate accr pid v g).map Prod.fst).Nodup := by
  rw [accumulate_keys]
  split
  · exact distinct
  · rename_i absent
    refine List.nodup_append.mpr ⟨distinct,List.nodup_singleton _,?_⟩
    rintro key member _ new rfl
    exact absent (List.mem_singleton.mp new ▸ member)

theorem shareOf_accumulate (distinct : (accr.map Prod.fst).Nodup) (q : Id) :
    shareOf (accumulate accr pid v g) q = shareOf accr q + if pid = q then (v,g) else 0 := by
  unfold accumulate
  by_cases there : accr.any (·.1 = pid) = true
  · rw [if_pos there]
    induction accr with
    | nil => cases there
    | cons entry rest ih =>
      obtain ⟨key,a,b⟩ := entry
      have apart := List.nodup_cons.mp distinct
      by_cases first : key = pid
      · -- no later entry is of this project
        subst first
        have others : ∀ f : Id × Rat × Rat → Id × Rat × Rat, (∀ entry, entry.1 ≠ key → f entry = entry) → rest.map f = rest := by
          intro f same
          refine (List.map_congr_left ?_).trans rest.map_id
          intro entry member
          have listed : entry.1 ∈ rest.map Prod.fst := List.mem_map_of_mem member
          refine same entry ?_
          rintro rfl
          exact apart.1 listed
        rw [List.map_cons,others _ fun entry other => if_neg other]
        simp only [List.map_cons,shareOf,List.sum_cons,↓reduceIte]
        split
        · rw [add_right_comm]
          rfl
        · rw [add_zero]
      · have later := ih apart.2 (by simpa [first] using there)
        simp only [List.map_cons,shareOf,List.sum_cons,first,↓reduceIte] at later ⊢
        rw [later,add_assoc]
  · rw [if_neg there]
    simp [shareOf]

end

/-- What `dt` seconds cost the project when these are the projects of the instances counted. -/
def charge (dt : Rat) (rows : List (Option Id)) (pid : Id) : Rat × Rat :=
  let seconds := dt * rows.count (some pid)
  (seconds,mem_mib / 1024 * seconds)

/-- The accumulator after these rows. -/
def accrOf (dt : Rat) (rows : List (Option Id)) : List (Id × Rat × Rat) :=
  rows.foldl (fun accr row => match row with
    | none => accr
    | some pid => accumulate accr pid dt (mem_mib / 1024 * dt)) []

theorem charge_append (dt : Rat) (rows : List (Option Id)) (row : Option Id) (pid : Id) :
    charge dt (rows ++ [row]) pid = charge dt rows pid + if row = some pid then (dt,mem_mib / 1024 * dt) else 0 := by
  by_cases same : row = some pid
  · simp only [charge,List.count_append,same,List.count_singleton_self,↓reduceIte,Prod.mk_add_mk]
    push_cast
    rw [mul_add,mul_one,mul_add]
  · have absent : List.count (some pid) [row] = 0 := List.count_eq_zero.mpr (by simpa using Ne.symm same)
    simp [charge,absent,same]

theorem accrOf_share (dt : Rat) (rows : List (Option Id)) :
    ((accrOf dt rows).map Prod.fst).Nodup ∧ ∀ pid, shareOf (accrOf dt rows) pid = charge dt rows pid := by
  induction rows using List.reverseRecOn with
  | nil =>
    refine ⟨List.nodup_nil,?_⟩
    intro pid
    simp [accrOf,shareOf,charge,Prod.ext_iff]
  | append_singleton rows row ih =>
    obtain ⟨distinct,shares⟩ := ih
    cases row with
    | none =>
      have same : accrOf dt (rows ++ [none]) = accrOf dt rows := by simp [accrOf]
      refine ⟨same ▸ distinct,?_⟩
      intro pid
      rw [same,shares,charge_append]
      simp
    | some pid' =>
      have added : accrOf dt (rows ++ [some pid']) = accumulate (accrOf dt rows) pid' dt (mem_mib / 1024 * dt) := by
        simp [accrOf]
      rw [added]
      refine ⟨accumulate_nodup distinct,?_⟩
      intro pid
      rw [shareOf_accumulate distinct,shares,charge_append]
      simp

end Klados
