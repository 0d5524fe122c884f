import Klados.Interleave
import Mathlib.Logic.Function.Basic

/-!
Threads that keep to an order. An auxiliary value of its own follows each thread: it sees the
calls of that thread, and says which calls the thread may make (`Track`). That a program keeps
to the order is shown of the program alone (`Leaves`), since no other thread touches the value;
then every thread of every run keeps to it (`Track.sound`).
-/
namespace Klados.Effects

/-- What is followed of a run: for each thread a value of its own, and one value for all. -/
structure Watched (G Λ : Type) where
  own : Nat → G
  all : Λ

/-- How a run is followed, and what a thread may call by the value it has. -/
structure Track (S : Sig) (ε W E G Λ : Type) where
  first : G
  next : Nat → (op : S.Op) → Except ε (S.Res op) → W → W → G → G
  notes : Nat → (op : S.Op) → Except ε (S.Res op) → W → W → Watched G Λ → Λ
  moves : E → W → Λ → Λ
  reboots : Λ → Λ
  may : Nat → G → S.Op → Prop

namespace Track
variable {S : Sig} {ε α β Req W C E G Λ : Type}

def sees (k : Track S ε W E G Λ) (t : Nat) (op : S.Op) (outcome : Except ε (S.Res op)) (w v : W) (seen : Watched G Λ) :
    Watched G Λ :=
  ⟨Function.update seen.own t (k.next t op outcome w v (seen.own t)),k.notes t op outcome w v seen⟩

abbrev machine (k : Track S ε W E G Λ) (m : Machine S ε α Req W C E) : Machine S ε α Req (W × Watched G Λ) C E :=
  m.watch k.sees (fun move w seen => ⟨seen.own,k.moves move w seen.all⟩) (fun seen => ⟨fun _ => k.first,k.reboots seen.all⟩)

/-- A run that starts is followed from here. -/
def start (k : Track S ε W E G Λ) (all : Λ) : Watched G Λ := ⟨fun _ => k.first,all⟩

def rules (k : Track S ε W E G Λ) (m : Machine S ε α Req W C E) : Rules S ε (W × Watched G Λ) where
  step := (k.machine m).step
  inv _ := True
  rely t s s' := s'.2.own t = s.2.own t
  guar t op s s' := k.may t (s.2.own t) op ∧ ∀ t', t' ≠ t → s'.2.own t' = s.2.own t'

/-- The value of thread `t` satisfies `p`. -/
def At (t : Nat) (p : G → Prop) (s : W × Watched G Λ) : Prop := p (s.2.own t)

/-- The thread ends with a value that satisfies `q`, or raises with one that satisfies `e`. -/
def Leaves (t : Nat) (e : G → Prop) (q : α → G → Prop) : Except ε α → W × Watched G Λ → Prop
  | .ok value => At t (q value)
  | .error _ => At t e

variable {A : Type} {k : Track S ε W E G Λ} {m : Machine S ε α Req W C E} {t : Nat} {p e : G → Prop}

@[simp] theorem sees_self {op : S.Op} {outcome : Except ε (S.Res op)} {w v : W} {seen : Watched G Λ} :
    (k.sees t op outcome w v seen).own t = k.next t op outcome w v (seen.own t) := Function.update_self _ _ _

theorem sees_other {op : S.Op} {outcome : Except ε (S.Res op)} {w v : W} {seen : Watched G Λ} {t' : Nat}
    (other : t' ≠ t) : (k.sees t op outcome w v seen).own t' = seen.own t' := Function.update_of_ne other _ _

theorem lawful : (k.rules m).Lawful := ⟨fun _ _ => rfl,fun _ {_ _ _} first second => second.trans first⟩

theorem stable_at : Stable (k.rules m) t (At t p) := by
  intro s s' _ _ same holds
  have equal : s'.2.own t = s.2.own t := same
  exact show p (s'.2.own t) from equal ▸ holds

theorem stable_leaves {q : β → G → Prop} (outcome : Except ε β) : Stable (k.rules m) t (Leaves t e q outcome) := by
  cases outcome with
  | ok value => exact stable_at
  | error error => exact stable_at

/-- The call is allowed, and what follows it is to be shown. -/
theorem acts {op : S.Op} {Q : Except ε (S.Res op) → W × Watched G Λ → Prop} (may : ∀ g, p g → k.may t g op)
    (post : ∀ choice outcome w v seen, p (seen.own t) → m.exec t op choice w = some (outcome,v) →
      Q outcome (v,k.sees t op outcome w v seen)) : Acts (k.rules m) t (At t p) op Q where
  keeps := by
    rintro ⟨w,seen⟩ outcome s _ holds ⟨choice,ran⟩
    obtain ⟨⟨outcome',v⟩,ran',same⟩ := Option.map_eq_some_iff.mp ran
    cases same
    exact ⟨trivial,⟨may _ holds,fun t' other => sees_other other⟩,post choice outcome w v seen holds ran'⟩

/-- The call is allowed by every value that satisfies `p`, and leaves one that does. -/
def Keeps (k : Track S ε W E G Λ) (t : Nat) (p : G → Prop) (op : S.Op) : Prop :=
  ∀ g, p g → k.may t g op ∧ ∀ outcome w v, p (k.next t op outcome w v g)

theorem keeps_triple {program : Prog S ε β} (keeps : program.Only (k.Keeps t p)) :
    Triple (k.rules m) t (At t p) program (fun _ => At t p) := by
  refine Triple.only stable_at ?_ keeps
  intro op free
  refine acts (fun g holds => (free g holds).1) ?_
  intro choice outcome w v seen holds _
  have after : p ((k.sees t op outcome w v seen).own t) := by
    rw [sees_self]
    exact (free _ holds).2 outcome w v
  exact after

theorem Leaves.mono {p' e' : G → Prop} {q q' : β → G → Prop} {program : Prog S ε β}
    (triple : Triple (k.rules m) t (At t p) program (Leaves t e q)) (pre : ∀ g, p' g → p g)
    (post : ∀ value g, q value g → q' value g) (raised : ∀ g, e g → e' g) :
    Triple (k.rules m) t (At t p') program (Leaves t e' q') := by
  refine triple.consequence (fun _ _ holds => pre _ holds) ?_
  intro outcome s _ holds
  cases outcome with
  | ok value => exact post value _ holds
  | error error => exact raised _ holds

theorem ret_triple {q : β → G → Prop} {value : β} (holds : ∀ g, p g → q value g) :
    Triple (k.rules m) t (At t p) (.ret value) (Leaves t e q) :=
  Triple.ret stable_at fun _ _ before => holds _ before

theorem raise_triple {q : β → G → Prop} {error : ε} (holds : ∀ g, p g → e g) :
    Triple (k.rules m) t (At t p) (.raise error) (Leaves t e q) :=
  Triple.raise stable_at fun _ _ before => holds _ before

/-- A part that makes allowed calls only and leaves the value as it should be. -/
theorem keeps_bind {program : Prog S ε A} {rest : A → Prog S ε β} {q : β → G → Prop} (keeps : program.Only (k.Keeps t p))
    (raised : ∀ g, p g → e g) (onward : ∀ value, Triple (k.rules m) t (At t p) (rest value) (Leaves t e q)) :
    Triple (k.rules m) t (At t p) (program >>= rest) (Leaves t e q) :=
  Triple.bind lawful (keeps_triple keeps) onward fun _ _ _ holds => raised _ holds

theorem seq {program : Prog S ε A} {rest : A → Prog S ε β} {r : A → G → Prop} {q : β → G → Prop}
    (first : Triple (k.rules m) t (At t p) program (Leaves t e r))
    (onward : ∀ value, Triple (k.rules m) t (At t (r value)) (rest value) (Leaves t e q)) :
    Triple (k.rules m) t (At t p) (program >>= rest) (Leaves t e q) :=
  Triple.bind lawful first onward fun _ _ _ holds => holds

theorem call_triple {op : S.Op} {r : S.Res op → G → Prop} (may : ∀ g, p g → k.may t g op)
    (post : ∀ choice value w v g, m.exec t op choice w = some (.ok value,v) → p g → r value (k.next t op (.ok value) w v g))
    (raised : ∀ choice error w v g, m.exec t op choice w = some (.error error,v) → p g →
      e (k.next t op (.error error) w v g)) :
    Triple (k.rules m) t (At t p) (Prog.perform op) (Leaves t e r) := by
  refine Triple.perform stable_at (acts may ?_) fun outcome => stable_leaves outcome
  intro choice outcome w v seen holds ran
  cases outcome with
  | ok value =>
    have after : r value ((k.sees t op (.ok value) w v seen).own t) := by
      rw [sees_self]
      exact post choice value w v _ ran holds
    exact after
  | error error =>
    have after : e ((k.sees t op (.error error) w v seen).own t) := by
      rw [sees_self]
      exact raised choice error w v _ ran holds
    exact after

/-- A call after which the value satisfies `r`. -/
theorem call_bind {op : S.Op} {r : S.Res op → G → Prop} {rest : S.Res op → Prog S ε β} {q : β → G → Prop}
    (may : ∀ g, p g → k.may t g op)
    (post : ∀ choice value w v g, m.exec t op choice w = some (.ok value,v) → p g → r value (k.next t op (.ok value) w v g))
    (raised : ∀ choice error w v g, m.exec t op choice w = some (.error error,v) → p g →
      e (k.next t op (.error error) w v g))
    (onward : ∀ value, Triple (k.rules m) t (At t (r value)) (rest value) (Leaves t e q)) :
    Triple (k.rules m) t (At t p) (Prog.perform op >>= rest) (Leaves t e q) :=
  seq (r := r) (call_triple (r := r) may post raised) onward

theorem catching {body : Prog S ε A} {handler : ε → Prog S ε A} {e' : G → Prop} {q : A → G → Prop}
    (inside : Triple (k.rules m) t (At t p) body (Leaves t e q))
    (handled : ∀ error, Triple (k.rules m) t (At t e) (handler error) (Leaves t e' q)) :
    Triple (k.rules m) t (At t p) (tryCatch body handler) (Leaves t e' q) :=
  Triple.catching lawful inside (fun _ _ _ holds => holds) handled

/-- A loop: `p done values` holds once the elements `done` gave `values`. -/
theorem each {body : β → Prog S ε A} {xs : List β} {p : List β → List A → G → Prop}
    (turn : ∀ done x rest values, xs = done ++ x :: rest →
      Triple (k.rules m) t (At t (p done values)) (body x) (Leaves t e fun value => p (done ++ [x]) (values ++ [value]))) :
    Triple (k.rules m) t (At t (p [] [])) (Prog.each xs body) (Leaves t e fun values => p xs values) := by
  refine (Triple.each (P := fun done values => At t (p done values)) (E := fun _ => At t e) lawful
    (fun _ _ => stable_at) ?_).consequence (fun _ _ holds => holds) ?_
  · intro done x rest values split
    refine (turn done x rest values split).consequence (fun _ _ holds => holds) ?_
    intro outcome s _ holds
    cases outcome <;> exact holds
  · intro outcome s _ holds
    cases outcome <;> exact holds

/-- When every request keeps to the order, every thread of every run does. -/
theorem sound {ok : Pool S ε α Req (W × Watched G Λ) → Action Req C E → Prop} {Q : Nat → Req → Except ε α → G → Prop}
    (bodies : ∀ (pool : Pool S ε α Req (W × Watched G Λ)) req, ok pool (.request req) →
      Triple (k.rules m) pool.threads.length (At pool.threads.length (· = k.first)) (m.body req)
        (fun outcome => At pool.threads.length (Q pool.threads.length req outcome))) :
    Sound (k.machine m) ok (k.rules m) (fun t => At t (· = k.first)) (fun t req outcome => At t (Q t req outcome)) where
  lawful := lawful
  calls _ _ choice _ _ _ _ _ _ _ _ ran := ⟨choice,ran⟩
  others t t' op w v other _ _ guaranteed := guaranteed.2 t other
  envs pool move world _ _ moved := by
    obtain ⟨v,_,same⟩ := Option.map_eq_some_iff.mp moved
    subst same
    exact ⟨trivial,fun _ => rfl⟩
  reboots _ _ _ := ⟨trivial,fun _ => rfl⟩
  young _ := stable_at
  bodies := bodies

end Track
end Klados.Effects
