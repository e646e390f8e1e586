import Ferrum.AddressSpace.Demand
import Ferrum.Kernel.Ownership
import Ferrum.System.Safety

/-!
# Progress of page faults

The handler of page faults looks neither at the kind of the access nor at the rights of the area. It maps
a page that is missing and otherwise returns to the instruction. So the instruction can go on if the area
allows the access and the entry that is there permits it; if not, it faults again for ever, or the program
gets an access that its area forbids. A fault for which the page-owner table has no place, or in the
kernel's half, stops the kernel.
-/
namespace Ferrum

inductive AccessKind where
  | read
  | write
  | fetch
  deriving DecidableEq, Repr

/-- The access that the processor reports in the error code of a page fault. -/
def AccessKind.ofErrorCode (errorCode : Nat) : AccessKind :=
  if errorCode.testBit 4 then .fetch else if errorCode.testBit 1 then .write else .read

def VMAFlags.allows (flags : VMAFlags) : AccessKind → Bool
  | .read => flags.read
  | .write => flags.write
  | .fetch => flags.exec

/-- Ring 3 may do this with a page. -/
def Access.permits (access : Access) : AccessKind → Bool
  | .read => access.present && access.user
  | .write => access.present && access.user && access.writable
  | .fetch => access.present && access.user && !access.noExec

/-- The area of an address allows an access. -/
def AreaAllows (vmas : List VMA) (addr : Nat) (kind : AccessKind) : Prop :=
  ∃ vma, Vmas.findVma vmas addr = some vma ∧ vma.flags.allows kind = true

/-- The entry of a page that was mapped for an area permits what the area allows. -/
theorem permits_of_allows {flags : VMAFlags} {kind : AccessKind} (allows : flags.allows kind = true) :
    flags.toPageFlags.access.permits kind = true := by
  cases kind with
  | read => rfl
  | write => exact allows
  | fetch =>
    have exec : flags.exec = true := allows
    simp [Access.permits, PageFlags.access, VMAFlags.toPageFlags, exec]

theorem System.segfault_dead {ρ : Type} {s : System ρ} {a : Process ρ} (current : s.sched.current = some a) :
    ∃ z, s.segfault.2.sched.slot s.sched.currentIdx = some z ∧ z.state = .dead := by
  obtain ⟨-, held⟩ := Scheduler.current_eq_some current
  obtain ⟨t, -, killed⟩ := kill_sched held none
  have dead : (s.kill s.sched.currentIdx none).sched.slot s.sched.currentIdx =
      some (Process.die t none a) := by
    rw [killed, Scheduler.slot_update, if_pos rfl, held, Option.map_some]
  have buried : Scheduler.Buries (s.kill s.sched.currentIdx none).sched s.segfault.2.sched :=
    (System.buries_tend tended_toHalt).trans (Scheduler.buries_schedule _)
  obtain ⟨z, there, dead, -⟩ := buried _ _ dead rfl
  exact ⟨z, there, dead⟩

namespace Kernel

variable {p : Profile} {k k' : Kernel} {addr errorCode : Nat} {image : Image} {S img : Set Nat}
  {tab : Tables}

/-- A page fault of the current process is either resolved, so that the access is allowed and possible
now, or ends the process. If the handler stops the kernel, it has done neither. -/
def FaultProgress (p : Profile) (k : Kernel) (addr errorCode : Nat) : Prop :=
  ∃ answer k', k.pageFault p addr = .ok (answer, k') ∧
    (answer = .ret 0 → ∃ image, k.current = some image ∧
      AreaAllows image.space.vmas addr (.ofErrorCode errorCode) ∧
      (effectiveAccess k'.mach.mem image.space.pml4 addr).permits (.ofErrorCode errorCode) = true) ∧
    (answer ≠ .ret 0 → ∃ z, k'.sys.sched.slot k.sys.sched.currentIdx = some z ∧ z.state = .dead)

/-! ## The three ends of a fault -/

theorem pageFault_resumes (current : k.current = some image) (low : addr < KERNEL_VIRT_BASE)
    {mach : Machine Pool} (handled : image.space.handlePageFault p k.mach addr = .ok (.ok (), mach)) :
    k.pageFault p addr = .ok (.ret 0, { k with mach }) := by
  rw [pageFault, if_neg (Nat.not_le.mpr low), current]
  simp only [handled, ok_bind]
  rfl

theorem pageFault_kills (current : k.current = some image) (low : addr < KERNEL_VIRT_BASE)
    {mach : Machine Pool} {e : String}
    (handled : image.space.handlePageFault p k.mach addr = .ok (.error e, mach)) :
    k.FaultProgress p addr errorCode := by
  refine ⟨.ended, { k with sys := k.sys.segfault.2, mach }, ?_, fun other => (nomatch other), fun _ => ?_⟩
  · rw [pageFault, if_neg (Nat.not_le.mpr low), current]
    simp only [handled, ok_bind]
    rfl
  · obtain ⟨process, running, -⟩ := Option.map_eq_some_iff.mp current
    exact System.segfault_dead running

theorem pageFault_stops (current : k.current = some image) (low : addr < KERNEL_VIRT_BASE) {why : Stop}
    (handled : image.space.handlePageFault p k.mach addr = .error why) :
    ¬ k.FaultProgress p addr errorCode := by
  rintro ⟨answer, k', run, -⟩
  rw [pageFault, if_neg (Nat.not_le.mpr low), current] at run
  simp only [handled, error_bind] at run
  cases run

/-- A fault after which the process goes on makes progress if the area allows the access and the entry
permits it. -/
theorem progress_of_resumes (current : k.current = some image)
    (run : k.pageFault p addr = .ok (.ret 0, k')) :
    k.FaultProgress p addr errorCode ↔ AreaAllows image.space.vmas addr (.ofErrorCode errorCode) ∧
      (effectiveAccess k'.mach.mem image.space.pml4 addr).permits (.ofErrorCode errorCode) = true := by
  constructor
  · rintro ⟨answer, k₁, run', resumed, -⟩
    obtain ⟨rfl, rfl⟩ := Prod.mk.inj (Except.ok.inj (run.symm.trans run'))
    obtain ⟨image', current', allows, permits⟩ := resumed rfl
    obtain rfl : image = image' := Option.some.inj (current.symm.trans current')
    exact ⟨allows, permits⟩
  · intro able
    exact ⟨_, _, run, fun _ => ⟨image, current, able⟩, fun other => absurd rfl other⟩

/-- The page table maps the page of an address. -/
def PageThere (k : Kernel) (image : Image) (addr : Nat) : Prop :=
  ∃ phys, Machine.translate k.mach.mem image.space.pml4 (alignDown addr PAGE_SIZE) = .ok (some phys)

/-- A fault on a page that is there returns to the instruction and changes nothing. -/
theorem pageFault_there (p : Profile) (current : k.current = some image) (low : addr < KERNEL_VIRT_BASE)
    (there : k.PageThere image addr) : k.pageFault p addr = .ok (.ret 0, k) := by
  obtain ⟨phys, there⟩ := there
  refine pageFault_resumes current low ?_
  rw [AddressSpace.handlePageFault, there]
  rfl

theorem access_of_mapped {st st' : Machine Pool} {space : AddressSpace}
    (inv : Machine.PoolInv S st) (own : Owned img st space.owner space.pml4 tab)
    (wf : Vmas.Wf space.vmas) (user : UserAreas img space.vmas)
    (run : space.handlePageFault p st addr = .ok (.ok (), st')) :
    (st' = st ∧ ∃ phys, Machine.translate st.mem space.pml4 (alignDown addr PAGE_SIZE) =
        .ok (some phys)) ∨
      Machine.translate st.mem space.pml4 (alignDown addr PAGE_SIZE) = .ok none ∧
      ∃ vma, Vmas.findVma space.vmas addr = some vma ∧
        effectiveAccess st'.mem space.pml4 addr = vma.flags.toPageFlags.access := by
  obtain ⟨tab', -, own', ⟨-, there⟩ | ⟨-, absent, vma, f, area, page, number, -, shown⟩⟩ :=
    own.fault_cases inv wf user run
  · exact .inl (there rfl)
  · refine .inr ⟨absent, vma, area, ?_⟩
    have here := shown _ page
    rw [if_pos rfl, pageAt_eq_some] at here
    exact own'.tree.effectiveAccess_eq (number ▸ here.1)

/-- What a fault needs on a page that is not there: a free frame decides whether the handler looks for
an entry of the page-owner table, which it must find, and with frames for the missing tables too the page
is mapped, so the area has to allow the access. -/
def Backable (k : Kernel) (image : Image) (addr errorCode : Nat) (vma : VMA) : Prop :=
  freeCells k.mach = ∅ ∨
  k.mach.pool.owners.length < RESERVE_CAPACITY ∧
    ((tablesMissing k.mach.mem image.space.pml4 (pagePath (pageOf addr)) + 1) * PAGE_SIZE ≤
      (freeCells k.mach).ncard → vma.flags.allows (.ofErrorCode errorCode) = true)

theorem progress_of_absent (current : k.current = some image) (inv : Machine.PoolInv S k.mach)
    (own : Owned img k.mach image.space.owner image.space.pml4 tab) (wf : Vmas.Wf image.space.vmas)
    (user : UserAreas img image.space.vmas) {vma : VMA} (p : Profile)
    (area : Vmas.findVma image.space.vmas addr = some vma) (gone : ¬ k.PageThere image addr) :
    k.FaultProgress p addr errorCode ↔ k.Backable image addr errorCode vma := by
  have low : addr < KERNEL_VIRT_BASE := by
    have := (user.page_of_area wf area).1
    simp only [KERNEL_VIRT_BASE]
    omega
  have absent : frameAt k.mach.mem tab (pageOf addr) = none := by
    by_contra there
    exact gone ((own.there_iff wf user area).mpr there)
  rcases own.fault_absent inv wf user area absent p with
    ⟨none, run⟩ | ⟨some, full, stops⟩ | ⟨some, room, f, done, st', tab', run, faulted, enough⟩
  · exact iff_of_true (pageFault_kills current low run) (.inl none)
  · refine iff_of_false (pageFault_stops current low stops) ?_
    rintro (none | ⟨room, -⟩)
    · exact some none
    · exact Nat.not_lt.mpr full room
  · cases done with
    | false =>
      refine iff_of_true (pageFault_kills current low run) (.inr ⟨room, fun frames => ?_⟩)
      exact absurd (enough.mpr frames) Bool.false_ne_true
    | true =>
      have access : effectiveAccess st'.mem image.space.pml4 addr = vma.flags.toPageFlags.access := by
        rcases access_of_mapped inv own wf user run with ⟨-, there⟩ | ⟨-, vma', area', access⟩
        · exact absurd there gone
        · rw [access, Option.some.inj (area'.symm.trans area)]
      rw [progress_of_resumes current (pageFault_resumes current low run), access]
      constructor
      · rintro ⟨⟨vma', area', allows⟩, -⟩
        obtain rfl : vma' = vma := Option.some.inj (area'.symm.trans area)
        exact .inr ⟨room, fun _ => allows⟩
      · rintro (none | ⟨-, allows⟩)
        · exact absurd none some
        · have allows := allows (enough.mp rfl)
          exact ⟨⟨vma, area, allows⟩, permits_of_allows allows⟩

/-- A fault makes progress just if it is below the kernel's half and either the page is there and the
access is allowed and permitted already, or it is not there and its area, if it has one, can be given the
page for that access or has to be refused it. The processor reports canonical addresses only. -/
theorem fault_progress_iff (p : Profile) (k : Kernel) (image : Image) (S img : Set Nat) (tab : Tables)
    (addr errorCode : Nat) (current : k.current = some image) (inv : Machine.PoolInv S k.mach)
    (own : Owned img k.mach image.space.owner image.space.pml4 tab) (wf : Vmas.Wf image.space.vmas)
    (user : UserAreas img image.space.vmas) (canonical : addr < 2 ^ 47 ∨ KERNEL_VIRT_BASE ≤ addr) :
    k.FaultProgress p addr errorCode ↔ addr < 2 ^ 47 ∧
      (k.PageThere image addr → AreaAllows image.space.vmas addr (.ofErrorCode errorCode) ∧
        (effectiveAccess k.mach.mem image.space.pml4 addr).permits (.ofErrorCode errorCode) = true) ∧
      (¬ k.PageThere image addr → ∀ vma, Vmas.findVma image.space.vmas addr = some vma →
        k.Backable image addr errorCode vma) := by
  rcases canonical with userHalf | high
  · have low : addr < KERNEL_VIRT_BASE := by
      simp only [KERNEL_VIRT_BASE]
      omega
    simp only [userHalf, true_and]
    by_cases there : k.PageThere image addr
    · rw [progress_of_resumes current (pageFault_there p current low there)]
      simp [there]
    simp only [there, false_implies, not_false_eq_true, true_implies, true_and]
    cases area : Vmas.findVma image.space.vmas addr with
    | none =>
      have number : pageOf (alignDown addr PAGE_SIZE) = pageOf addr := pageOf_alignDown userHalf
      have absent : view k.mach.mem tab (pageOf addr) = none := by
        by_contra seen
        obtain ⟨e, seen⟩ := Option.ne_none_iff_exists'.mp seen
        refine there ⟨e.1 + alignDown addr PAGE_SIZE % PAGE_SIZE, ?_⟩
        rw [own.tree.translate_ok (number ▸ pageOf_lower userHalf), number, seen]
        rfl
      refine iff_of_true (pageFault_kills current low (own.fault_outside userHalf absent area)) ?_
      intro vma found
      cases found
    | some vma =>
      rw [progress_of_absent current inv own wf user p area there]
      simp
  · refine iff_of_false ?_ fun below => ?_
    · rintro ⟨answer, k', run, -⟩
      rw [pageFault, if_pos high] at run
      cases run
    · simp only [KERNEL_VIRT_BASE] at high
      omega

theorem resident_runs : ∃ (st : Machine Pool) (k : Kernel), residentStart = .ok st ∧
    calls .dev [.plain .timer] (residentInit st) = .ok k ∧ k.mach = st ∧
    k.current = some ⟨residentSpace, none, 0, 0x401000, 0x401000⟩ ∧
    k.PageThere ⟨residentSpace, none, 0, 0x401000, 0x401000⟩ 0x400000 ∧
    effectiveAccess k.mach.mem residentSpace.pml4 0x400000 = ⟨true, true, true, true⟩ := by
  have evaluates : (do
      let st ← residentStart
      let found ← Machine.translate st.mem residentSpace.pml4 (alignDown 0x400000 PAGE_SIZE)
      return (found.isSome, effectiveAccess st.mem residentSpace.pml4 0x400000)) =
        Except.ok (true, ⟨true, true, true, true⟩) := by decide +kernel
  obtain ⟨st, start, rest⟩ := bind_eq_ok.mp evaluates
  obtain ⟨found, translated, rest⟩ := bind_eq_ok.mp rest
  obtain ⟨there, access⟩ := Prod.mk.inj (Except.ok.inj rest)
  obtain ⟨phys, rfl⟩ := Option.isSome_iff_exists.mp there
  exact ⟨st, _, start, rfl, rfl, rfl, ⟨phys, translated⟩, access⟩

/-- A jump into a page of data: the area is not executable and the entry forbids it, but the handler
returns to the instruction with nothing changed. -/
theorem fetch_faults_forever : ∃ k : Kernel,
    Reachable (fun k => ∃ S, Begun S k) (fun k k' => ∃ call answer, Step .dev k call answer k') k ∧
    k.current = some ⟨residentSpace, none, 0, 0x401000, 0x401000⟩ ∧
    k.pageFault .dev 0x400000 = .ok (.ret 0, k) ∧
    ¬ AreaAllows residentSpace.vmas 0x400000 (.ofErrorCode 0x15) ∧
    (effectiveAccess k.mach.mem residentSpace.pml4 0x400000).permits (.ofErrorCode 0x15) = false := by
  obtain ⟨st, k, start, run, -, current, there, access⟩ := resident_runs
  refine ⟨k, reachable_calls run (.start (residentInit_begun start)), current,
    pageFault_there .dev current (by decide) there, ?_, by rw [access]; rfl⟩
  rintro ⟨vma, area, allows⟩
  have only : Vmas.findVma residentSpace.vmas 0x400000 =
      some ⟨0x400000, 0x401000, .rw, .anonymous⟩ := by decide
  rw [only] at area
  cases area
  cases allows

/-- A write to the same page. -/
theorem resident_write_progress : ∃ k : Kernel, k.FaultProgress .dev 0x400000 0x7 ∧
    k.pageFault .dev 0x400000 = .ok (.ret 0, k) := by
  obtain ⟨st, k, start, run, rfl, current, there, access⟩ := resident_runs
  obtain ⟨S, tab, inv, own, -⟩ := residentStart_owned residentImage_off start
  refine ⟨k, ?_, pageFault_there .dev current (by decide) there⟩
  refine (fault_progress_iff .dev k _ S residentImage.pages tab 0x400000 0x7 current inv own
    residentSpace_wf (residentSpace_user residentImage_off) (.inl (by decide))).mpr
    ⟨by decide, fun _ => ⟨⟨⟨0x400000, 0x401000, .rw, .anonymous⟩, by decide, rfl⟩, ?_⟩,
      fun gone => absurd there gone⟩
  rw [access]
  rfl

end Kernel
end Ferrum
