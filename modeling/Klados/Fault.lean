import Mathlib.Algebra.Group.Nat.Defs
import Mathlib.Data.List.TakeDrop
import Mathlib.Data.List.Induction
import Klados.Files

/-!
The page-fault handler of the shared-base experiment. It maps the base memory file once, takes the
place of the guest memory from the handoff, and answers every page fault with a page of the base or
with a page of zeros.
-/
namespace Klados.Uffd
open Files (Bytes)

def PAGE : UInt64 := 4096

/-- `off & !(PAGE - 1)`. -/
def pageOf (off : UInt64) : UInt64 := off &&& ~~~(PAGE - 1)

theorem page_toNat : PAGE.toNat = 4096 := rfl

theorem pageOf_toNat (off : UInt64) : (pageOf off).toNat = off.toNat / 4096 * 4096 := by
  have shifts : pageOf off = (off >>> 12) <<< 12 := by
    apply UInt64.toBitVec_inj.mp
    apply BitVec.eq_of_getLsbD_eq
    intro i bound
    have high : ∀ i < 64, (18446744073709547520#64).getLsbD i = decide (12 ≤ i) := by decide
    rw [pageOf,show PAGE - 1 = 4095 by decide]
    by_cases small : i < 12
    · simp [small,high i bound]
    · have back : 12 + (i - 12) = i := by omega
      have above : (18446744073709547520#64).getLsbD i = true := by
        rw [high i bound]
        simpa using small
      simp [small,back,above,bound]
  rw [shifts]
  have bound := off.toNat_lt
  simp [Nat.shiftRight_eq_div_pow,Nat.shiftLeft_eq]
  omega

/-- `usize::saturating_sub`. -/
def saturating_sub (a b : UInt64) : UInt64 := if a < b then 0 else a - b

theorem saturating_sub_toNat (a b : UInt64) : (saturating_sub a b).toNat = a.toNat - b.toNat := by
  unfold saturating_sub
  split
  · rename_i less
    have := UInt64.lt_iff_toNat_lt.mp less
    show 0 = _
    omega
  · rename_i least
    exact UInt64.toNat_sub_of_le _ _ (UInt64.not_lt.mp least)

/-- The base memory file. The length of a file is a signed number. -/
structure BaseFile where
  bytes : Bytes
  size : bytes.length < 2 ^ 63

def BaseFile.len (base : BaseFile) : UInt64 := UInt64.ofNat base.bytes.length

/-- The pages of the guest that are present, by their addresses. -/
abbrev Guest := UInt64 → Option Bytes

/-- `UFFDIO_COPY`, which fails on a page that is present. -/
def Guest.copy (guest : Guest) (dst : UInt64) (src : Bytes) : Option Guest :=
  if (guest dst).isSome then none else some (Function.update guest dst (some src))

/-- `UFFDIO_ZEROPAGE`, which fails likewise. -/
def Guest.zeropage (guest : Guest) (dst : UInt64) : Option Guest :=
  guest.copy dst (List.replicate PAGE.toNat 0)

/-- What `read_event` returns. -/
inductive Event
  | pagefault (addr : UInt64)
  | other
  | nothing
  | error

inductive Process
  | serving (guest : Guest) (faults : UInt64)
  | panicked (message : String)
  | exited (code : Nat)

/-- `map_base`. A mapping of no bytes is refused. -/
def map_base (base : BaseFile) : Option (Bytes × UInt64) :=
  if base.bytes.isEmpty then none else some (base.bytes,base.len)

/-- `main` until its loop. -/
def start (base : BaseFile) (guest_len : UInt64) : Process :=
  match map_base base with
  | none => .panicked "mmap base failed"
  | some _ => if guest_len = 0 then .exited 2 else .serving (fun _ => none) 0

/-- The arm of a page fault. -/
def fault (base : BaseFile) (guest_addr guest_len : UInt64) (guest : Guest) (faults addr : UInt64) : Process :=
  let off := saturating_sub addr guest_addr
  let page_off := pageOf off
  let dst := guest_addr + page_off
  if page_off + PAGE ≤ base.len ∧ page_off + PAGE ≤ guest_len then
    match guest.copy dst ((base.bytes.drop page_off.toNat).take PAGE.toNat) with
    | some guest => .serving guest (faults + 1)
    | none => .panicked "uffdio_copy"
  else
    .serving ((guest.zeropage dst).getD guest) faults

/-- One turn of the loop. -/
def turn (base : BaseFile) (guest_addr guest_len : UInt64) : Process → Event → Process
  | .serving guest faults,.pagefault addr => fault base guest_addr guest_len guest faults addr
  | .serving guest faults,.other => .serving guest faults
  | .serving guest faults,.nothing => .serving guest faults
  | .serving _ _,.error => .exited 0
  | stopped,_ => stopped

def main (base : BaseFile) (guest_addr guest_len : UInt64) (events : List Event) : Process :=
  events.foldl (turn base guest_addr guest_len) (start base guest_len)

/-! ## Faults in the guest memory -/

/-- The guest memory of a handoff: some memory, on pages, in the half of the addresses that a
    process can map. -/
structure Region where
  guest_addr : UInt64
  guest_len : UInt64
  aligned : guest_addr.toNat % 4096 = 0
  some_memory : 0 < guest_len.toNat
  top : guest_addr.toNat + guest_len.toNat ≤ 2 ^ 63

/-- A fault in the guest memory. -/
structure Fault (region : Region) where
  addr : UInt64
  least : region.guest_addr.toNat ≤ addr.toNat
  inside : addr.toNat < region.guest_addr.toNat + region.guest_len.toNat

def Fault.page {region : Region} (fault : Fault region) : UInt64 := pageOf fault.addr

section
variable (base : BaseFile) (region : Region)

/-- The offset of a page in the guest memory and in the base. -/
def Region.offset (page : UInt64) : Nat := page.toNat - region.guest_addr.toNat

/-- The page lies wholly inside the base and inside the guest memory. -/
def Whole (page : UInt64) : Prop :=
  region.offset page + 4096 ≤ base.bytes.length ∧ region.offset page + 4096 ≤ region.guest_len.toNat

/-- The bytes of the base at the place of the page, with zeros beyond its end. -/
def wanted (page : UInt64) : Bytes := (base.bytes.drop (region.offset page)).takeD 4096 0

/-- These are zeros. -/
def Blank (page : UInt64) : Prop := wanted base region page = List.replicate 4096 0

instance (page : UInt64) : Decidable (Whole base region page) := inferInstanceAs (Decidable (_ ∧ _))

/-- The process after some faults. -/
def after (faults : List (Fault region)) : Process :=
  main base region.guest_addr region.guest_len (faults.map fun fault => .pagefault fault.addr)

/-- After a fault the process serves, the page of the fault holds what the base does, and no other
    page was touched. -/
def ServesNext (before : List (Fault region)) (fault : Fault region) : Prop :=
  ∃ guest n guest' n', after base region before = .serving guest n ∧
    after base region (before ++ [fault]) = .serving guest' n' ∧
    guest' fault.page = some (wanted base region fault.page) ∧ ∀ page, page ≠ fault.page → guest' page = guest page

/-- The process starts to serve with an empty guest memory, and serves every fault. -/
structure Serves (faults : List (Fault region)) : Prop where
  starts : after base region [] = .serving (fun _ => none) 0
  each : ∀ before fault rest, faults = before ++ fault :: rest → ServesNext base region before fault

/-- When it does so: the base is not empty, a page that is not whole is blank in the base, and a
    whole one faults once. -/
structure Servable (faults : List (Fault region)) : Prop where
  mapped : base.bytes ≠ []
  blank : ∀ fault ∈ faults, ¬ Whole base region fault.page → Blank base region fault.page
  once : faults.Pairwise fun first second => Whole base region second.page → first.page ≠ second.page

end

section
variable {base : BaseFile} {region : Region}

/-- The destination of the handler is the page of the fault. -/
theorem Fault.dst (fault : Fault region) :
    region.guest_addr + pageOf (saturating_sub fault.addr region.guest_addr) = fault.page := by
  have aligned := region.aligned
  have least := fault.least
  have bound := fault.addr.toNat_lt
  apply UInt64.toNat_inj.mp
  rw [UInt64.toNat_add,pageOf_toNat,saturating_sub_toNat,page,pageOf_toNat]
  omega

theorem Fault.page_off (fault : Fault region) :
    (pageOf (saturating_sub fault.addr region.guest_addr)).toNat = region.offset fault.page := by
  have aligned := region.aligned
  have least := fault.least
  rw [pageOf_toNat,saturating_sub_toNat,Region.offset,page,pageOf_toNat]
  omega

/-- The sums of the handler do not wrap. -/
theorem Fault.within (fault : Fault region) {len : UInt64} :
    pageOf (saturating_sub fault.addr region.guest_addr) + PAGE ≤ len ↔ region.offset fault.page + 4096 ≤ len.toNat := by
  have inside := fault.inside
  have top := region.top
  have low : region.offset fault.page ≤ fault.addr.toNat := by
    rw [Region.offset,page,pageOf_toNat]
    omega
  rw [UInt64.le_iff_toNat_le,UInt64.toNat_add,fault.page_off,page_toNat]
  omega

theorem BaseFile.len_toNat (base : BaseFile) : base.len.toNat = base.bytes.length := by
  have size := base.size
  rw [BaseFile.len,UInt64.toNat_ofNat']
  omega

/-- What the handler does at a fault in the guest memory. -/
theorem turn_fault (guest : Guest) (n : UInt64) (fault : Fault region) :
    turn base region.guest_addr region.guest_len (.serving guest n) (.pagefault fault.addr) =
      if Whole base region fault.page then
        match guest.copy fault.page (wanted base region fault.page) with
        | some guest => .serving guest (n + 1)
        | none => .panicked "uffdio_copy"
      else .serving ((guest.zeropage fault.page).getD guest) n := by
  simp only [turn,Uffd.fault,fault.within,fault.dst,fault.page_off,base.len_toNat,page_toNat]
  by_cases whole : Whole base region fault.page
  · have whole' := whole
    unfold Whole at whole'
    have room : 4096 ≤ (base.bytes.drop (region.offset fault.page)).length := by
      rw [List.length_drop]
      omega
    rw [if_pos whole',if_pos whole,wanted,List.takeD_eq_take _ room]
  · have part := whole
    unfold Whole at part
    rw [if_neg part,if_neg whole]

theorem after_snoc (before : List (Fault region)) (fault : Fault region) :
    after base region (before ++ [fault]) =
      turn base region.guest_addr region.guest_len (after base region before) (.pagefault fault.addr) := by
  simp [after,main]

/-- A mapping that is not empty is served. -/
theorem starts_iff : after base region [] = .serving (fun _ => none) 0 ↔ base.bytes ≠ [] := by
  have wired : region.guest_len ≠ 0 := by
    intro zero
    have := region.some_memory
    rw [zero] at this
    exact absurd this (by decide)
  cases empty : base.bytes with
  | nil => simp [after,main,start,map_base,empty]
  | cons byte rest => simp [after,main,start,map_base,empty,wired]

/-- The pages that faulted hold what the base does, and no others are present. -/
structure Populated (base : BaseFile) (guest : Guest) (faults : List (Fault region)) : Prop where
  held : ∀ fault ∈ faults, guest fault.page = some (wanted base region fault.page)
  bare : ∀ page, (∀ fault ∈ faults, fault.page ≠ page) → guest page = none

theorem serves_snoc (before : List (Fault region)) (fault : Fault region) :
    Serves base region (before ++ [fault]) ↔ Serves base region before ∧ ServesNext base region before fault := by
  constructor
  · intro serves
    refine ⟨⟨serves.starts,?_⟩,serves.each before fault [] rfl⟩
    intro front next rest split
    exact serves.each front next (rest ++ [fault]) (by simp [split])
  · intro ⟨serves,last⟩
    refine ⟨serves.starts,?_⟩
    intro front next rest split
    rcases List.eq_nil_or_concat rest with rfl | ⟨more,final,rfl⟩
    · obtain ⟨rfl,same⟩ := List.append_inj' split rfl
      cases same
      exact last
    · have longer : before ++ [fault] = (front ++ next :: more) ++ [final] := by simpa using split
      obtain ⟨same,_⟩ := List.append_inj' longer rfl
      exact serves.each front next more same

theorem servable_snoc (before : List (Fault region)) (fault : Fault region) :
    Servable base region (before ++ [fault]) ↔ Servable base region before ∧
      (¬ Whole base region fault.page → Blank base region fault.page) ∧
      (Whole base region fault.page → ∀ first ∈ before, first.page ≠ fault.page) := by
  constructor
  · intro ⟨mapped,blank,once⟩
    rw [List.pairwise_append] at once
    exact ⟨⟨mapped,fun first member => blank first (List.mem_append_left _ member),once.1⟩,
      blank fault (by simp),fun whole first member => once.2.2 first member fault (by simp) whole⟩
  · intro ⟨⟨mapped,blank,once⟩,blank',once'⟩
    refine ⟨mapped,?_,?_⟩
    · intro next member
      rcases List.mem_append.mp member with earlier | last
      · exact blank next earlier
      · rw [List.mem_singleton.mp last]
        exact blank'
    · rw [List.pairwise_append]
      refine ⟨once,List.pairwise_singleton _ _,?_⟩
      intro first earlier second last
      rw [List.mem_singleton.mp last]
      exact fun whole => once' whole first earlier

/-- Run: as long as the handler serves, the guest memory holds the base. -/
theorem Serves.populated {faults : List (Fault region)} (serves : Serves base region faults) :
    ∃ guest n, after base region faults = .serving guest n ∧ Populated base guest faults := by
  induction faults using List.reverseRecOn with
  | nil => exact ⟨_,_,serves.starts,by simp,fun _ _ => rfl⟩
  | append_singleton before fault ih =>
    obtain ⟨earlier,guest,n,guest',n',ran,ran',holds,others⟩ := (serves_snoc before fault).mp serves
    obtain ⟨guest₀,n₀,ran₀,populated⟩ := ih earlier
    rw [ran] at ran₀
    cases ran₀
    refine ⟨guest',n',ran',?_,?_⟩
    · intro next member
      by_cases same : next.page = fault.page
      · rw [same,holds]
      · rcases List.mem_append.mp member with before | last
        · rw [others _ same,populated.held next before]
        · exact absurd (by rw [List.mem_singleton.mp last]) same
    · intro page fresh
      rw [others page (fresh fault (by simp)).symm]
      exact populated.bare page fun next member => fresh next (List.mem_append_left _ member)

/-- Step: when the next fault is served. -/
theorem serves_next_iff {before : List (Fault region)} {guest : Guest} {n : UInt64}
    (ran : after base region before = .serving guest n) (populated : Populated base guest before)
    (servable : Servable base region before) (fault : Fault region) :
    ServesNext base region before fault ↔ (¬ Whole base region fault.page → Blank base region fault.page) ∧
      (Whole base region fault.page → ∀ first ∈ before, first.page ≠ fault.page) := by
  unfold ServesNext
  rw [after_snoc,ran,turn_fault]
  by_cases present : ∃ first ∈ before, first.page = fault.page
  · obtain ⟨first,member,same⟩ := present
    have held : guest fault.page = some (wanted base region fault.page) := by
      rw [← same]
      exact populated.held first member
    by_cases whole : Whole base region fault.page
    · -- The page is present: the copy fails and the process ends.
      have failed : guest.copy fault.page (wanted base region fault.page) = none := by simp [Guest.copy,held]
      rw [if_pos whole,failed]
      simp only [reduceCtorEq,false_and,and_false,exists_false,false_iff]
      exact fun ⟨_,once⟩ => once whole first member same
    · have failed : guest.zeropage fault.page = none := by simp [Guest.zeropage,Guest.copy,held]
      rw [if_neg whole,failed]
      refine iff_of_true ⟨guest,n,guest,n,rfl,rfl,held,fun _ _ => rfl⟩ ⟨fun _ => ?_,fun here => absurd here whole⟩
      rw [← same] at whole ⊢
      exact servable.blank first member whole
  · have fresh : ∀ first ∈ before, first.page ≠ fault.page := fun first member same => present ⟨first,member,same⟩
    have absent := populated.bare fault.page fresh
    by_cases whole : Whole base region fault.page
    · have copied : guest.copy fault.page (wanted base region fault.page) =
          some (Function.update guest fault.page (some (wanted base region fault.page))) := by simp [Guest.copy,absent]
      rw [if_pos whole,copied]
      refine iff_of_true ⟨guest,n,_,_,rfl,rfl,Function.update_self ..,?_⟩ ⟨fun part => absurd whole part,fun _ => fresh⟩
      exact fun page other => Function.update_of_ne other ..
    · have zeroed : guest.zeropage fault.page =
          some (Function.update guest fault.page (some (List.replicate 4096 0))) := by
        rw [Guest.zeropage,Guest.copy,absent,page_toNat]
        rfl
      rw [if_neg whole,zeroed]
      constructor
      · rintro ⟨_,_,guest',_,_,ran',holds,_⟩
        cases ran'
        rw [Option.getD_some,Function.update_self] at holds
        exact ⟨fun _ => (Option.some.inj holds).symm,fun here => absurd here whole⟩
      · intro ⟨blank,_⟩
        refine ⟨guest,n,_,n,rfl,rfl,?_,fun page other => Function.update_of_ne other ..⟩
        rw [Option.getD_some,Function.update_self,blank whole]

theorem servable_of_serves {faults : List (Fault region)} (serves : Serves base region faults) :
    Servable base region faults := by
  induction faults using List.reverseRecOn with
  | nil => exact ⟨starts_iff.mp serves.starts,by simp,List.Pairwise.nil⟩
  | append_singleton before fault ih =>
    obtain ⟨earlier,last⟩ := (serves_snoc before fault).mp serves
    obtain ⟨guest,n,ran,populated⟩ := earlier.populated
    have servable := ih earlier
    exact (servable_snoc before fault).mpr ⟨servable,(serves_next_iff ran populated servable fault).mp last⟩

theorem serves_of_servable {faults : List (Fault region)} (servable : Servable base region faults) :
    Serves base region faults := by
  induction faults using List.reverseRecOn with
  | nil => exact ⟨starts_iff.mpr servable.mapped,by simp⟩
  | append_singleton before fault ih =>
    obtain ⟨earlier,last⟩ := (servable_snoc before fault).mp servable
    have serves := ih earlier
    obtain ⟨guest,n,ran,populated⟩ := serves.populated
    exact (serves_snoc before fault).mpr ⟨serves,(serves_next_iff ran populated earlier fault).mpr last⟩

end

/-- The handler serves a sequence of faults, from every base and in every guest memory, if and only if
    the base is not empty, no page that lies wholly inside the base and the guest memory faults twice,
    and the base has only zeros at the place of every other page that faults. -/
theorem handler_serves (base : BaseFile) (region : Region) (faults : List (Fault region)) :
    Serves base region faults ↔ Servable base region faults :=
  ⟨servable_of_serves,serves_of_servable⟩

def onePage : BaseFile := ⟨List.replicate 4096 7,by rw [List.length_replicate]; omega⟩

def partPage : BaseFile := ⟨[7],by decide⟩

def oneRegion : Region := ⟨65536,4096,by decide,by decide,by decide⟩

def firstFault : Fault oneRegion := ⟨65536,by decide,by decide⟩

/-- A second fault on a page ends the handler, and a part of a page at the end of the base is not
    served but given as zeros. -/
theorem handler_not_serves : ¬ Serves onePage oneRegion [firstFault,firstFault] ∧
    ¬ Serves partPage oneRegion [firstFault] := by
  constructor
  · intro serves
    have once := (servable_of_serves serves).once
    have whole : Whole onePage oneRegion firstFault.page := by
      constructor
      · rw [onePage,List.length_replicate]
        decide
      · decide
    rw [List.pairwise_pair] at once
    exact once whole rfl
  · intro serves
    have blank := (servable_of_serves serves).blank firstFault (by simp) (by decide)
    have head := congrArg List.head? blank
    rw [wanted,show oneRegion.offset firstFault.page = 0 by decide,show (4096 : Nat) = 4095 + 1 from rfl,
      List.replicate_succ (n := 4095)] at head
    exact absurd (Option.some.inj head) (by decide)

end Klados.Uffd
