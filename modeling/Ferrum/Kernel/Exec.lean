import Ferrum.Elf.Fidelity
import Ferrum.Kernel.Isolation
import Ferrum.Kernel.Layout

/-!
# Failing execve

`execve` clears the address space of the caller before it looks at the file. A call that fails before
that leaves the caller alone; a call that fails after it has taken the caller's areas away, and what the
loader has put in their place is what the caller goes on with.
-/
namespace Ferrum

open Machine (Local PoolInv Own)

def EFAULT : Nat := 14

namespace Kernel

/-- `syscall_execve`: the path may be unreadable, lead nowhere or lead to a file. -/
def syscallExecve (p : Profile) (k : Kernel) (path : Option (Option (List UInt8)))
    (stack : StackImage) : Except Stop (Answer Image × Kernel) :=
  match path with
  | none => .ok (.err EFAULT, k)
  | some file => k.execve p file stack

end Kernel

/-- The process shows the same to its program as before. -/
structure Image.Same (image : Image) (st : Machine Pool) (image' : Image) (st' : Machine Pool) :
    Prop where
  vmas : image'.space.vmas = image.space.vmas
  translations : ∀ a, Machine.translate st'.mem image'.space.pml4 a =
    Machine.translate st.mem image.space.pml4 a
  contents : ∀ a, load st' image'.space a = load st image.space a
  brkStart : image'.brkStart = image.brkStart
  brkCurrent : image'.brkCurrent = image.brkCurrent
  fsBase : image'.fsBase = image.fsBase

theorem Image.Same.refl (image : Image) (st : Machine Pool) : image.Same st image st :=
  ⟨rfl, fun _ => rfl, fun _ => rfl, rfl, rfl, rfl⟩

namespace Kernel

variable {p : Profile} {k k' : Kernel} {path : Option (Option (List UInt8))} {stack : StackImage}
  {errno : Nat} {image : Image} {S img : Set Nat}

/-- The caller is as it was. -/
def CallerSame (k k' : Kernel) : Prop :=
  ∀ image, k.current = some image → ∃ image', k'.current = some image' ∧ image.Same k.mach image' k'.mach

theorem callerSame_refl (k : Kernel) : CallerSame k k := fun image current => ⟨image, current, .refl _ _⟩

theorem current_withImage (current : k.current = some image) (image' : Image) (mach : Machine Pool) :
    (k.withImage image' mach).current = some image' := by
  obtain ⟨a, found, -⟩ := Option.map_eq_some_iff.mp current
  unfold Kernel.current withImage
  simp only [System.current_update, if_pos, found, Option.map_some]

/-- The ways in which `execve` can fail: before it has touched anything, or in the loader, after the
address space has been cleared. -/
theorem syscallExecve_err (run : k.syscallExecve p path stack = .ok (.err errno, k')) :
    k' = k ∧ (path = none ∨ path = some none ∨ k.current = none) ∨
    ∃ file image st₁ e space st₂, path = some (some file) ∧ k.current = some image ∧
      image.space.clearUser p k.mach = .ok ({ image.space with vmas := [] }, st₁) ∧
      Elf.load p { image.space with vmas := [] } st₁ file = .ok (.error e, space, st₂) ∧
      k' = k.withImage { image with space } st₂ := by
  unfold syscallExecve at run
  split at run
  · obtain ⟨-, rfl⟩ := Prod.mk.inj (Except.ok.inj run)
    exact Or.inl ⟨rfl, Or.inl rfl⟩
  · rename_i file
    unfold execve at run
    split at run
    · obtain ⟨-, rfl⟩ := Prod.mk.inj (Except.ok.inj run)
      exact Or.inl ⟨rfl, Or.inr (Or.inl rfl)⟩
    · rename_i file
      unfold onImage at run
      split at run
      · rename_i nobody
        obtain ⟨-, rfl⟩ := Prod.mk.inj (Except.ok.inj run)
        exact Or.inl ⟨rfl, Or.inr (Or.inr nobody)⟩
      · rename_i image current
        obtain ⟨⟨answer, image', mach⟩, made, out⟩ := bind_eq_ok.mp run
        obtain ⟨answered, rfl⟩ := Prod.mk.inj (Except.ok.inj out)
        obtain ⟨⟨r, image'', mach'⟩, ran, out⟩ := bind_eq_ok.mp made
        obtain ⟨rfl, rest⟩ := Prod.mk.inj (Except.ok.inj out)
        obtain ⟨rfl, rfl⟩ := Prod.mk.inj rest
        obtain ⟨⟨space₁, st₁⟩, cleared, ran⟩ := bind_eq_ok.mp ran
        obtain ⟨st, -, emptied⟩ := bind_eq_ok.mp cleared
        obtain ⟨rfl, rfl⟩ := Prod.mk.inj (Except.ok.inj emptied)
        obtain ⟨⟨loaded, space₂, st₂⟩, load, ran⟩ := bind_eq_ok.mp ran
        cases loaded with
        | error e =>
          obtain ⟨-, rest⟩ := Prod.mk.inj (Except.ok.inj ran)
          obtain ⟨rfl, rfl⟩ := Prod.mk.inj rest
          exact Or.inr ⟨file, image, st, e, space₂, st₂, rfl, current, cleared, load, rfl⟩
        | ok entry =>
          -- past the loader the call succeeds or panics
          obtain ⟨brk, -, ran⟩ := bind_eq_ok.mp ran
          obtain ⟨st₃, -, ran⟩ := bind_eq_ok.mp ran
          obtain ⟨st₄, -, ran⟩ := bind_eq_ok.mp ran
          obtain ⟨⟨image₁, st₅⟩, -, ran⟩ := bind_eq_ok.mp ran
          obtain ⟨rfl, -⟩ := Prod.mk.inj (Except.ok.inj ran)
          cases answered

theorem syscallExecve_run {file : List UInt8} {st₁ st₂ : Machine Pool} {e : String}
    {space : AddressSpace} (current : k.current = some image)
    (cleared : image.space.clearUser p k.mach = .ok ({ image.space with vmas := [] }, st₁))
    (load : Elf.load p { image.space with vmas := [] } st₁ file = .ok (.error e, space, st₂))
    (stack : StackImage) : k.syscallExecve p (some (some file)) stack =
      .ok (.err ENOEXEC, k.withImage { image with space } st₂) := by
  simp only [syscallExecve, execve, onImage, current, execImage, cleared, load, ok_bind, pure_eq_ok]
  rfl

/-! ## What a loader that fails leaves -/

theorem load_anonymous {file : List UInt8} {st st' : Machine Pool} {space space' : AddressSpace}
    {r : Except String Nat} (empty : space.vmas = [])
    (run : Elf.load p space st file = .ok (r, space', st')) : ∀ v ∈ space'.vmas, v.kind = .anonymous := by
  have closed : Vmas.Closed (fun v => v.kind = .anonymous) fun l => ∀ v ∈ l, v.kind = .anonymous :=
    Vmas.closed_forall fun u w _ hw _ _ => hw
  obtain ⟨vmas, rfl, areas⟩ := Elf.load_areas closed run (by simp [empty]) (fun _ _ _ _ _ _ _ => rfl)
  exact areas

/-- A file that ends after one bad program header. -/
def refusedPhdr : Elf.Phdr := ⟨Elf.PT_LOAD, 0, 2 ^ 63, 0, 0, 1⟩

theorem refusedPhdr_narrow : refusedPhdr.Narrow := by constructor <;> decide

/-- One page at `q`, and then a segment that is not in the file. -/
def pagePhdr (q : Nat) : Elf.Phdr := ⟨Elf.PT_LOAD, Elf.PF_R, 0, q * PAGE_SIZE, 0, 1⟩

/-- A segment of almost `2 ^ 64` bytes. -/
def wrappedPhdr : Elf.Phdr := ⟨Elf.PT_LOAD, Elf.PF_R, 0, 0x1000, 0, 2 ^ 64 - 1⟩

/-- When the first of two segments has been loaded and the second is refused, the area of the first
stays. -/
theorem load_pair {first : Elf.Phdr} {st st₁ : Machine Pool} {space : AddressSpace} {v : VMA}
    {r : Except String Unit} (narrow : first.Narrow) (isLoad : first.isLoad)
    (run : Elf.loadSegment p space st (Elf.pairFile first refusedPhdr) first =
      .ok (r, { space with vmas := [v] }, st₁)) :
    ∃ e, Elf.load p space st (Elf.pairFile first refusedPhdr) =
      .ok (.error e, { space with vmas := [v] }, st₁) := by
  obtain ⟨valid, length, number, header₀, header₁⟩ := Elf.pairFile_headers narrow refusedPhdr_narrow
  have refused {space st} : Elf.loadSegment p space st (Elf.pairFile first refusedPhdr) refusedPhdr =
      .ok (.error "ELF: PT_LOAD file data out of bounds", space, st) := by
    rw [Elf.loadSegment, if_neg (by decide), if_pos (by rw [length]; decide)]
    rfl
  have isLoad₁ : refusedPhdr.isLoad := by decide
  cases r with
  | error e =>
    refine ⟨e, ?_⟩
    simp only [Elf.load, valid, number, Elf.loadHeaders, header₀, isLoad, run, ok_bind, pure_eq_ok]
    rfl
  | ok =>
    refine ⟨"ELF: PT_LOAD file data out of bounds", ?_⟩
    simp only [Elf.load, valid, number, Elf.loadHeaders, header₀, header₁, isLoad, isLoad₁, run, refused,
      ok_bind, pure_eq_ok]
    rfl

theorem loadSegment_wrapped {space : AddressSpace} (empty : space.vmas = []) (st : Machine Pool)
    (file : List UInt8) : Elf.loadSegment .release space st file wrappedPhdr =
      .ok (.ok (), { space with vmas := [⟨0x1000, 0x1000, Elf.pflagsToVma Elf.PF_R, .anonymous⟩] }, st) := by
  have range : Elf.segmentRange .release wrappedPhdr = .ok (0x1000, 0x1000, 0) := by decide +kernel
  rw [Elf.loadSegment, if_neg (by decide), if_neg (by simp [wrappedPhdr]), range, ok_bind, empty]
  rfl

theorem pagePhdr_loadable {q : Nat} (user : UserPage img q) : Elf.Loadable img (pagePhdr q) ∧
    (pagePhdr q).Narrow ∧ (pagePhdr q).first = q * PAGE_SIZE ∧ (pagePhdr q).count = 1 := by
  have lower := user.lower
  simp only [LowerPage] at lower
  have first : (pagePhdr q).first = q * PAGE_SIZE := by
    simp only [Elf.Phdr.first, pagePhdr, PAGE_SIZE]
    omega
  have past : (pagePhdr q).past = (q + 1) * PAGE_SIZE := by
    simp only [Elf.Phdr.past, pagePhdr, roundUp, PAGE_SIZE]
    omega
  have narrow : (pagePhdr q).Narrow := by
    constructor <;> simp only [pagePhdr, Elf.PT_LOAD, Elf.PF_R, PAGE_SIZE] <;> omega
  refine ⟨⟨rfl, ?_, ?_⟩, narrow, first, ?_⟩
  · rw [first, past]
    refine ⟨Nat.dvd_mul_left _ _, Nat.dvd_mul_left _ _, ?_, fun r hr inside => user.off ?_⟩
    · simp only [PAGE_SIZE]
      omega
    · obtain rfl : r = q := by
        simp only [pagesIn, Set.mem_ofPred_eq, PAGE_SIZE] at hr
        omega
      exact inside
  · simp only [pagePhdr, PAGE_SIZE]
    omega
  · rw [Elf.Phdr.count, first, past, Nat.succ_mul, Nat.add_sub_cancel_left]
    exact Nat.div_self Buddy.page_pos

/-- The area of a segment. -/
def segmentArea (ph : Elf.Phdr) : VMA := ⟨ph.first, ph.past, Elf.pflagsToVma ph.flags, .anonymous⟩

/-- A segment of one page is registered, and the loader returns, unless it gets a frame and has no room
for it in the page-owner table. -/
theorem loadSegment_page {q : Nat} {st : Machine Pool} {space : AddressSpace} {tab : Tables}
    (inv : PoolInv S st) (own : Owned img st space.owner space.pml4 tab) (user : UserPage img q)
    (empty : space.vmas = []) (file : List UInt8)
    (room : ¬ (RESERVE_CAPACITY ≤ st.pool.owners.length ∧
      ∃ f st', st.allocBlock p space.owner 0 = .ok (some f, st'))) :
    ∃ r v st', Elf.loadSegment p space st file (pagePhdr q) = .ok (r, { space with vmas := [v] }, st') := by
  obtain ⟨ok, -, first, one⟩ := pagePhdr_loadable user
  have inFile : Elf.InFile file (pagePhdr q) := ⟨Nat.zero_le _, by simp [pagePhdr], ok.bytes⟩
  have whole := Elf.Phdr.count_mul ok.load
  have run : ∃ r st', Elf.loadPages p { space with vmas := [segmentArea (pagePhdr q)] } file
      (pagePhdr q) (pagePhdr q).first (pagePhdr q).count 0 st = .ok (r, st') := by
    have loop := Elf.loadPages_spec { space with vmas := [segmentArea (pagePhdr q)] } inFile
      (pagePhdr q).first (pagePhdr q).count 0 inv own (by simpa only [Nat.zero_mul, Nat.add_zero, Nat.zero_add, whole] using ok.range) p
    rcases loop with ⟨r, st', -, run, -⟩ | ⟨-, full⟩
    · exact ⟨r, st', run⟩
    · obtain ⟨a, st₁, -, alloc, -⟩ := own.alloc inv p
      rw [one] at full ⊢
      cases a with
      | some f => exact absurd ⟨by omega, f, st₁, alloc⟩ room
      | none =>
        have start : p.add (pagePhdr q).first (0 * PAGE_SIZE) = .ok (pagePhdr q).first := by
          have below := ok.range.below
          obtain ⟨-, -, -, -, order, -⟩ := Elf.Phdr.bounds ok.load
          rw [p.add_ok (by omega)]
          simp
        exact ⟨_, st₁, by rw [Elf.loadPages, start, ok_bind]; exact congrArg (· >>= _) alloc⟩
  obtain ⟨r, st', run⟩ := run
  refine ⟨r, segmentArea (pagePhdr q), st', ?_⟩
  rw [Elf.loadSegment, if_neg (by simp [pagePhdr]), if_neg (by simp [pagePhdr]),
    Elf.segmentRange_eq ok.load ok.fits, ok_bind, empty]
  exact congrArg (· >>= _) run

section Stuck

variable {st st' st₁ : Machine Pool} {space space' : AddressSpace} {file : List UInt8} {f : Nat}

/-- In a dev build a range that is computed is a range of at least one page. -/
theorem segmentRange_dev {ph : Elf.Phdr} {out : Nat × Nat × Nat}
    (run : Elf.segmentRange .dev ph = .ok out) : ph.vaddr + ph.memsz + PAGE_SIZE < 2 ^ 64 := by
  obtain ⟨past, added, run⟩ := bind_eq_ok.mp run
  have low := Profile.lt_of_dev_add_ok added
  rw [Profile.dev.add_ok low] at added
  obtain rfl := Except.ok.inj added
  obtain ⟨stop, rounded, -⟩ := bind_eq_ok.mp run
  by_contra high
  rw [alignUp_dev_error (Nat.not_lt.mp high)] at rounded
  cases rounded

/-- With frames to give but no room in the page-owner table, a dev build gets no segment past its first
page: what returns has changed nothing. -/
theorem loadSegment_stuck {ph : Elf.Phdr} {r : Except String Unit} (isLoad : ph.isLoad)
    (empty : space.vmas = []) (full : RESERVE_CAPACITY ≤ st.pool.owners.length)
    (alloc : st.allocBlock .dev space.owner 0 = .ok (some f, st₁))
    (run : Elf.loadSegment .dev space st file ph = .ok (r, space', st')) :
    (∃ e, r = .error e) ∧ space' = space ∧ st' = st := by
  unfold Elf.loadSegment at run
  split at run
  · cases run
    exact ⟨⟨_, rfl⟩, rfl, rfl⟩
  split at run
  · cases run
    exact ⟨⟨_, rfl⟩, rfl, rfl⟩
  obtain ⟨out, ranged, run⟩ := bind_eq_ok.mp run
  have fits := segmentRange_dev ranged
  rw [Elf.segmentRange_eq isLoad fits] at ranged
  obtain rfl := Except.ok.inj ranged
  rw [empty] at run
  obtain ⟨⟨r', st₂⟩, pages, -⟩ := bind_eq_ok.mp run
  obtain ⟨-, -, -, -, order, -⟩ := Elf.Phdr.bounds isLoad
  obtain ⟨n, count⟩ : ∃ n, (ph.past - ph.first) / PAGE_SIZE = n + 1 := by
    have whole := Elf.Phdr.count_mul isLoad
    rw [← Elf.Phdr.count]
    refine Nat.exists_eq_succ_of_ne_zero fun none => ?_
    rw [none] at whole
    omega
  rw [count, Elf.loadPages] at pages
  obtain ⟨v, -, pages⟩ := bind_eq_ok.mp pages
  obtain ⟨⟨frame, st₃⟩, taken, pages⟩ := bind_eq_ok.mp pages
  obtain ⟨rfl, rfl⟩ := Prod.mk.inj (Except.ok.inj (alloc.symm.trans taken))
  obtain ⟨pool, tracked, -⟩ := bind_eq_ok.mp pages
  rw [Pool.track, Machine.allocBlock_owners alloc, if_pos full] at tracked
  cases tracked

theorem loadHeaders_stuck {n i : Nat} {r : Except String Unit} (empty : space.vmas = [])
    (full : RESERVE_CAPACITY ≤ st.pool.owners.length)
    (alloc : st.allocBlock .dev space.owner 0 = .ok (some f, st₁))
    (run : Elf.loadHeaders .dev file n i space st = .ok (r, space', st')) :
    space' = space ∧ st' = st := by
  induction n generalizing i with
  | zero =>
    obtain ⟨-, rest⟩ := Prod.mk.inj (Except.ok.inj run)
    exact ⟨(Prod.mk.inj rest).1.symm, (Prod.mk.inj rest).2.symm⟩
  | succ n ih =>
    rw [Elf.loadHeaders] at run
    split at run
    · exact ih run
    · rename_i isLoad
      obtain ⟨⟨r', space₁, st₂⟩, segment, run⟩ := bind_eq_ok.mp run
      have load : (Elf.header file i).isLoad := by simpa using isLoad
      obtain ⟨⟨e, refused⟩, same, still⟩ := loadSegment_stuck load empty full alloc segment
      simp only [refused, same, still, pure_eq_ok, Except.ok.injEq, Prod.mk.injEq] at run
      exact ⟨run.2.1.symm, run.2.2.symm⟩

theorem load_stuck {r : Except String Nat} (empty : space.vmas = [])
    (full : RESERVE_CAPACITY ≤ st.pool.owners.length)
    (alloc : st.allocBlock .dev space.owner 0 = .ok (some f, st₁))
    (run : Elf.load .dev space st file = .ok (r, space', st')) : space' = space ∧ st' = st := by
  unfold Elf.load at run
  split at run
  · obtain ⟨-, rest⟩ := Prod.mk.inj (Except.ok.inj run)
    exact ⟨(Prod.mk.inj rest).1.symm, (Prod.mk.inj rest).2.symm⟩
  · obtain ⟨⟨r', space₁, st₂⟩, loaded, run⟩ := bind_eq_ok.mp run
    obtain ⟨-, rest⟩ := Prod.mk.inj (Except.ok.inj run)
    obtain ⟨rfl, rfl⟩ := Prod.mk.inj rest
    exact loadHeaders_stuck empty full alloc loaded

end Stuck

/-! ## When a failing call is harmless -/

/-- The one state of a process in which no file does harm: it has no areas to lose, and in a dev build
the page-owner table has no room for the first page of a new one, so that the loader panics. -/
structure Harmless (p : Profile) (k : Kernel) (image : Image) : Prop where
  dev : p = .dev
  empty : image.space.vmas = []
  full : RESERVE_CAPACITY ≤ k.mach.pool.owners.length
  alloc : ∃ f st', k.mach.allocBlock p image.space.owner 0 = .ok (some f, st')

theorem clearUser_nil {space : AddressSpace} (empty : space.vmas = []) (st : Machine Pool) :
    space.clearUser p st = .ok (space, st) := by
  obtain ⟨pml4, vmas, pid, id⟩ := space
  obtain rfl : vmas = [] := empty
  rfl

theorem harmless_of_all {q : Nat} (inv : PoolInv S k.mach) (current : k.current = some image)
    (sound : image.space.Sound img k.mach) (user : UserPage img q)
    (all : ∀ path stack errno k', k.syscallExecve p path stack = .ok (.err errno, k') → CallerSame k k') :
    Harmless p k image := by
  obtain ⟨tab, own⟩ := sound.own
  obtain ⟨st₁, cleared, clears⟩ := AddressSpace.clearUser_spec inv own sound.areas p
  -- a file that the loader refuses shows what the loader has left of the areas
  have areas {file e space st₂} (load : Elf.load p { image.space with vmas := [] } st₁ file =
      .ok (.error e, space, st₂)) : space.vmas = image.space.vmas := by
    have run := syscallExecve_run current cleared load ⟨[], 0⟩
    obtain ⟨image', now, same⟩ := all _ _ _ _ run image current
    obtain rfl := Option.some.inj ((current_withImage current _ _).symm.trans now)
    exact same.vmas
  have tooSmall : Elf.load p { image.space with vmas := [] } st₁ [] =
      .ok (.error "ELF: data too small for header", { image.space with vmas := [] }, st₁) := rfl
  have empty : image.space.vmas = [] := (areas tooSmall).symm
  rw [clearUser_nil empty] at cleared
  obtain ⟨bare, same⟩ := Prod.mk.inj (Except.ok.inj cleared)
  rw [← bare, ← same] at areas
  cases p with
  | release =>
    have narrow : wrappedPhdr.Narrow := by constructor <;> decide
    obtain ⟨e, load⟩ := load_pair narrow (by decide) (loadSegment_wrapped empty k.mach _)
    rw [empty] at areas
    cases areas load
  | dev =>
    by_contra harmful
    have room : ¬ (RESERVE_CAPACITY ≤ k.mach.pool.owners.length ∧
        ∃ f st', k.mach.allocBlock .dev image.space.owner 0 = .ok (some f, st')) :=
      fun both => harmful ⟨rfl, empty, both.1, both.2⟩
    obtain ⟨-, narrow, -⟩ := pagePhdr_loadable user
    obtain ⟨r, v, st₂, segment⟩ := loadSegment_page inv own user empty
      (Elf.pairFile (pagePhdr q) refusedPhdr) room
    obtain ⟨e, load⟩ := load_pair narrow rfl segment
    rw [empty] at areas
    cases areas load

/-- All failing calls leave the caller alone if and only if the caller is in that one state. Of a process
with a stack or a heap, a failing call leaves everything alone if and only if it fails before the file
is there. -/
theorem execve_atomic_iff {q : Nat} (inv : PoolInv S k.mach)
    (sound : ∀ image, k.current = some image → image.space.Sound img k.mach) (user : UserPage img q)
    (p : Profile) :
    ((∀ path stack errno k', k.syscallExecve p path stack = .ok (.err errno, k') → CallerSame k k') ↔
      ∀ image, k.current = some image → Harmless p k image) ∧
    ∀ path stack errno k', k.syscallExecve p path stack = .ok (.err errno, k') →
      (path = none ∨ path = some none → k' = k) ∧
      ∀ image, k.current = some image → (∃ v ∈ image.space.vmas, v.kind ≠ .anonymous) →
        (CallerSame k k' ↔ path = none ∨ path = some none) := by
  refine ⟨⟨fun all image current => harmless_of_all inv current (sound image current) user all, ?_⟩, ?_⟩
  · intro harmless path stack errno k' run
    rcases syscallExecve_err run with ⟨rfl, -⟩ | ⟨file, image, st₁, e, space, st₂, -, current, cleared,
      load, rfl⟩
    · exact callerSame_refl _
    · obtain ⟨rfl, empty, full, f, st', alloc⟩ := harmless image current
      rw [clearUser_nil empty] at cleared
      obtain ⟨bare, same⟩ := Prod.mk.inj (Except.ok.inj cleared)
      rw [← bare, ← same] at load
      obtain ⟨rfl, rfl⟩ := load_stuck empty full alloc load
      intro image' now
      obtain rfl := Option.some.inj (current.symm.trans now)
      exact ⟨_, current_withImage current _ _, .refl _ _⟩
  · intro path stack errno k' run
    rcases syscallExecve_err run with ⟨rfl, early⟩ | ⟨file, image, st₁, e, space, st₂, rfl, current, -,
      load, rfl⟩
    · refine ⟨fun _ => rfl, fun image current _ => ⟨fun _ => ?_, fun _ => callerSame_refl _⟩⟩
      rcases early with h | h | nobody
      · exact Or.inl h
      · exact Or.inr h
      · rw [nobody] at current
        cases current
    · refine ⟨by simp, fun image' now other => ⟨fun same => ?_, by simp⟩⟩
      obtain rfl := Option.some.inj (current.symm.trans now)
      obtain ⟨image', after, same⟩ := same _ current
      obtain rfl := Option.some.inj ((current_withImage current _ _).symm.trans after)
      -- the loader registers anonymous areas only, so an area of another kind is gone
      obtain ⟨v, hv, kind⟩ := other
      have left := same.vmas
      simp only at left
      exact absurd (load_anonymous rfl load v (left ▸ hv)) kind

/-! ## The resident process -/

/-- The resident process, running. -/
def residentKernel (mach : Machine Pool) : Kernel :=
  let k := loneInit ⟨residentSpace, none, 0, 0x401000, 0x401000⟩ mach residentImage 0x1000 1
  { k with sys := { k.sys with sched := k.sys.sched.schedule } }

theorem residentKernel_current (mach : Machine Pool) : (residentKernel mach).current =
    some ⟨residentSpace, none, 0, 0x401000, 0x401000⟩ := rfl

theorem residentKernel_sound {st : Machine Pool} (start : residentStart = .ok st) :
    ∃ S, PoolInv S st ∧ ∀ image, (residentKernel st).current = some image →
      image.space.Sound residentImage.pages st := by
  obtain ⟨S, tab, inv, own, -, -⟩ := residentStart_owned residentImage_off start
  refine ⟨S, inv, fun image current => ?_⟩
  obtain rfl := Option.some.inj ((residentKernel_current st).symm.trans current)
  exact ⟨⟨tab, own⟩, residentSpace_wf, residentSpace_user residentImage_off⟩

/-- A process with an area can lose it. -/
theorem resident_execve_atomic_iff : ∃ st, residentStart = .ok st ∧
    ((∀ path stack errno k', (residentKernel st).syscallExecve .dev path stack = .ok (.err errno, k') →
      CallerSame (residentKernel st) k') ↔
      ∀ image, (residentKernel st).current = some image → Harmless .dev (residentKernel st) image) := by
  have evaluates : (do
      let _ ← residentStart
      return ()) = Except.ok () := by decide +kernel
  obtain ⟨st, start, -⟩ := bind_eq_ok.mp evaluates
  obtain ⟨S, inv, sound⟩ := residentKernel_sound start
  have user : UserPage residentImage.pages 0x400 :=
    ⟨by simp [LowerPage], residentImage_off⟩
  exact ⟨st, start, (execve_atomic_iff inv sound user .dev).1⟩

/-- `execve` of an empty file returns `-ENOEXEC`; the area of the caller is gone, and so is the page that
it could read before. -/
theorem execve_empty_file : ∃ st k', residentStart = .ok st ∧
    (residentKernel st).syscallExecve .dev (some (some [])) ⟨[], 0⟩ = .ok (.err ENOEXEC, k') ∧
    load st residentSpace 0x400123 = .ok (some 0) ∧ load k'.mach residentSpace 0x400123 = .ok none ∧
    k'.current.map (fun image => image.space.vmas) = some [] ∧
    ¬ CallerSame (residentKernel st) k' := by
  have evaluates : (do
      let st ← residentStart
      let before ← load st residentSpace 0x400123
      let (answer, k') ← (residentKernel st).syscallExecve .dev (some (some [])) ⟨[], 0⟩
      let after ← load k'.mach residentSpace 0x400123
      let errno := match answer with
        | .err errno => some errno
        | _ => none
      return (before, after, errno, k'.current.map fun image => image.space.vmas)) =
        Except.ok (some 0, none, some ENOEXEC, some []) := by decide +kernel
  obtain ⟨st, start, rest⟩ := bind_eq_ok.mp evaluates
  obtain ⟨before, loaded, rest⟩ := bind_eq_ok.mp rest
  obtain ⟨⟨answer, k'⟩, run, rest⟩ := bind_eq_ok.mp rest
  obtain ⟨after, lost, rest⟩ := bind_eq_ok.mp rest
  obtain ⟨first, others⟩ := Prod.mk.inj (Except.ok.inj rest)
  obtain ⟨second, results⟩ := Prod.mk.inj others
  obtain ⟨errno, areas⟩ := Prod.mk.inj results
  subst first second
  have answered : answer = .err ENOEXEC := by
    split at errno
    · exact congrArg Answer.err (Option.some.inj errno)
    · cases errno
  subst answered
  refine ⟨st, k', start, run, loaded, lost, areas, fun same => ?_⟩
  obtain ⟨image', now, same⟩ := same _ (residentKernel_current st)
  rw [now, Option.map_some, same.vmas] at areas
  cases Option.some.inj areas

end Kernel
end Ferrum
