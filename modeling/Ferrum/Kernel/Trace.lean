import Ferrum.AddressSpace.Teardown
import Ferrum.Kernel.Stores

/-!
# What an operation does to the pool

Building an address space only takes blocks, and some of them are then tracked. Taking one down only
gives blocks back. Both are read off the functions themselves, in whatever state they are called, for
any relation between states that is closed under the single steps. Together with the bookkeeping of
holders this says how often each block changes hands.
-/
namespace Ferrum

variable {R : Machine Pool → Machine Pool → Prop} {st st' st'' : Machine Pool} {p : Profile}
  {owner : Owner} {space child parent : AddressSpace}

theorem Machine.allocBlock_log {order a : Nat} (run : st.allocBlock p owner order = .ok (some a, st')) :
    st'.pool.log = .alloc owner ⟨a, order⟩ :: st.pool.log ∧ st'.pool.owners = st.pool.owners := by
  obtain ⟨⟨_, b⟩, -, run⟩ := bind_eq_ok.mp run
  obtain ⟨rfl, rfl⟩ := by simpa using run
  exact ⟨rfl, rfl⟩

theorem Machine.freeBlock_log {order a : Nat} (run : st.freeBlock p owner a order = .ok st') :
    st'.pool.log = .free owner ⟨a, order⟩ :: st.pool.log ∧ st'.pool.owners = st.pool.owners := by
  obtain ⟨b, -, run⟩ := bind_eq_ok.mp run
  obtain rfl := Except.ok.inj run
  exact ⟨rfl, rfl⟩

/-- A relation that allows steps which leave log and table of owners alone, one after another. -/
structure Quiet (R : Machine Pool → Machine Pool → Prop) : Prop where
  quiet : ∀ {st st' : Machine Pool}, st'.pool.log = st.pool.log → st'.pool.owners = st.pool.owners →
    R st st'
  trans : ∀ {st st' st''}, R st st' → R st' st'' → R st st''

/-- A relation that allows blocks to be taken, and tracked when they are taken. -/
structure Taking (R : Machine Pool → Machine Pool → Prop) : Prop extends Quiet R where
  alloc : ∀ {p owner st st' order a}, Machine.allocBlock p owner st order = .ok (some a, st') → R st st'
  tracked : ∀ {p owner st st' order a tag pid pool},
    Machine.allocBlock p owner st order = .ok (some a, st') →
    st'.pool.track a ⟨tag, pid, order⟩ = .ok pool → R st { st' with pool }

/-- A relation that allows page frames to be given back and untracked. -/
structure Giving (R : Machine Pool → Machine Pool → Prop) : Prop extends Quiet R where
  release : ∀ {p space st st' f}, AddressSpace.release p space st f = .ok st' → R st st'

namespace Quiet

variable (closed : Quiet R)
include closed

theorem refl (st : Machine Pool) : R st st := closed.quiet rfl rfl

theorem foldlM {α : Type} {body : Machine Pool → α → Except Stop (Machine Pool)}
    (step : ∀ {st st' a}, body st a = .ok st' → R st st') {l : List α}
    (run : l.foldlM body st = .ok st') : R st st' := by
  induction l generalizing st with
  | nil =>
    obtain rfl := Except.ok.inj run
    exact closed.refl _
  | cons a l ih =>
    rw [List.foldlM_cons] at run
    obtain ⟨st₁, one, rest⟩ := bind_eq_ok.mp run
    exact closed.trans (step one) (ih rest)

theorem forPages {body : Machine Pool → Nat → Except Stop (Machine Pool)}
    (step : ∀ {st st' a}, body st a = .ok st' → R st st') {start stop : Nat}
    (run : Ferrum.forPages p body st start stop = .ok st') : R st st' := by
  unfold Ferrum.forPages at run
  generalize (stop - start) / PAGE_SIZE + 1 = fuel at run
  induction fuel generalizing st start with
  | zero =>
    unfold pageLoop at run
    split at run
    · cases run
    · obtain rfl := Except.ok.inj run
      exact closed.refl _
  | succ fuel ih =>
    unfold pageLoop at run
    split at run
    · obtain ⟨st₁, one, run⟩ := bind_eq_ok.mp run
      obtain ⟨next, -, run⟩ := bind_eq_ok.mp run
      exact closed.trans (step one) (ih run)
    · obtain rfl := Except.ok.inj run
      exact closed.refl _

theorem unmap {root v : Nat} {r : Option Nat} (run : st.unmap root v = .ok (r, st')) : R st st' := by
  obtain ⟨pt, -, run⟩ := bind_eq_ok.mp run
  cases pt with
  | none =>
    obtain ⟨-, rfl⟩ := by simpa using run
    exact closed.refl _
  | some pt =>
    obtain ⟨_, -, run⟩ := bind_eq_ok.mp run
    simp only at run
    split at run
    · obtain ⟨-, rfl⟩ := by simpa using run
      exact closed.quiet rfl rfl
    · obtain ⟨-, rfl⟩ := by simpa using run
      exact closed.refl _

theorem writeViaPt {pml4 n vaddr : Nat} {data : List UInt8} {written : Bool}
    (run : Ferrum.writeViaPt p pml4 n st vaddr data = .ok (written, st')) : R st st' := by
  refine writeViaPt_induction (P := fun _ _ st st' => R st st') run (fun _ _ st => closed.refl st) ?_ ?_
  · intro a data st phys some found
    exact closed.quiet rfl rfl
  · intro a data st phys next st' some found longer added rest
    have first : R st (storeFirst st phys a data) := closed.quiet rfl rfl
    exact closed.trans first rest

theorem buildStack {stores : List (Nat × List UInt8)}
    (run : Ferrum.buildStack p space stores st = .ok st') : R st st' := by
  refine closed.foldlM (fun {st st' store} one => ?_) run
  obtain ⟨⟨written, st₁⟩, wrote, one⟩ := bind_eq_ok.mp one
  cases written with
  | false => cases one
  | true =>
    obtain rfl := Except.ok.inj one
    exact closed.writeViaPt wrote

end Quiet

/-- The bytes of a file are put into a page, and nothing is asked of the pool. -/
theorem copyFileBytes_pool {data : List UInt8} {ph : Elf.Phdr} {pageVaddr phys : Nat}
    (run : Elf.copyFileBytes p data ph pageVaddr phys st = .ok st') : st'.pool = st.pool := by
  obtain ⟨_, -, run⟩ := bind_eq_ok.mp run
  obtain ⟨_, -, run⟩ := bind_eq_ok.mp run
  simp only at run
  split at run
  · obtain ⟨_, -, run⟩ := bind_eq_ok.mp run
    split at run
    · cases run
    · obtain rfl := Except.ok.inj run
      rfl
  · obtain rfl := Except.ok.inj run
    rfl

/-! ## Taking -/

namespace Taking

variable (taking : Taking R)
include taking

theorem allocBlock {r : Option Nat} {order : Nat}
    (run : st.allocBlock p owner order = .ok (r, st')) : R st st' := by
  cases r with
  | some a => exact taking.alloc run
  | none =>
    obtain ⟨⟨a, b⟩, -, run⟩ := bind_eq_ok.mp run
    obtain ⟨rfl, rfl⟩ := by simpa using run
    exact taking.quiet rfl rfl

omit taking in
theorem block_of_page {r : Option Nat} (run : st.allocPage p owner = .ok (r, st')) :
    st.allocBlock p owner 0 = .ok (r, st') := by
  obtain ⟨⟨a, st₁⟩, block, run⟩ := bind_eq_ok.mp run
  cases a with
  | none =>
    obtain ⟨rfl, rfl⟩ := by simpa using run
    exact block
  | some a =>
    obtain ⟨_, -, run⟩ := bind_eq_ok.mp run
    obtain ⟨rfl, rfl⟩ := by simpa using run
    exact block

theorem allocPage {r : Option Nat} (run : st.allocPage p owner = .ok (r, st')) : R st st' :=
  taking.allocBlock (block_of_page run)

theorem ensureTable {r : Option Nat} {t i : Nat} {flags : PageFlags}
    (run : st.ensureTable (poolPages p owner) t i flags = .ok (r, st')) : R st st' := by
  unfold Machine.ensureTable at run
  simp only at run
  split at run
  · split at run
    · obtain ⟨-, rfl⟩ := by simpa using run
      exact taking.refl _
    · split at run
      · obtain ⟨-, rfl⟩ := by simpa using run
        exact taking.quiet rfl rfl
      · obtain ⟨-, rfl⟩ := by simpa using run
        exact taking.refl _
  · obtain ⟨⟨a, st₁⟩, page, run⟩ := bind_eq_ok.mp run
    cases a with
    | none =>
      obtain ⟨-, rfl⟩ := by simpa using run
      exact taking.allocPage page
    | some a =>
      simp only at run
      split at run
      · cases run
      · obtain ⟨-, rfl⟩ := by simpa using run
        exact taking.trans (taking.allocPage page) (taking.quiet rfl rfl)

theorem ensurePath {r : Option Nat} {path : List Nat} {t : Nat} {flags : PageFlags}
    (run : Machine.ensurePath (poolPages p owner) flags path st t = .ok (r, st')) : R st st' := by
  induction path generalizing st t with
  | nil =>
    obtain ⟨-, rfl⟩ := by simpa [Machine.ensurePath] using run
    exact taking.refl _
  | cons i path ih =>
    rw [Machine.ensurePath] at run
    obtain ⟨_, -, run⟩ := bind_eq_ok.mp run
    obtain ⟨⟨next, st₁⟩, table, run⟩ := bind_eq_ok.mp run
    cases next with
    | none =>
      obtain ⟨-, rfl⟩ := by simpa using run
      exact taking.ensureTable table
    | some next => exact taking.trans (taking.ensureTable table) (ih run)

theorem map {r : Option Unit} {root v f : Nat} {flags : PageFlags}
    (run : st.map (poolPages p owner) root v f flags = .ok (r, st')) : R st st' := by
  obtain ⟨⟨pt, st₁⟩, path, run⟩ := bind_eq_ok.mp run
  cases pt with
  | none =>
    obtain ⟨-, rfl⟩ := by simpa using run
    exact taking.ensurePath path
  | some pt =>
    obtain ⟨_, -, run⟩ := bind_eq_ok.mp run
    obtain ⟨-, rfl⟩ := by simpa using run
    exact taking.trans (taking.ensurePath path) (taking.quiet rfl rfl)

theorem fill {order a pid : Nat} {tag : String} {st₁ st₂ : Machine Pool} {pool : Pool}
    (block : st.allocBlock p owner order = .ok (some a, st₁))
    (tracked : st₁.pool.track a ⟨tag, pid, order⟩ = .ok pool) (same : st₂.pool = pool)
    (rest : R st₂ st') : R st st' :=
  taking.trans (taking.tracked block tracked)
    (taking.trans (taking.quiet (by rw [same]) (by rw [same])) rest)

theorem newUser {r : Option Nat} {kernelPml4 pid : Nat}
    (run : st.newUser (poolPages p owner) kernelPml4 pid = .ok (r, st')) : R st st' := by
  obtain ⟨⟨a, st₁⟩, page, run⟩ := bind_eq_ok.mp run
  cases a with
  | none =>
    obtain ⟨-, rfl⟩ := by simpa using run
    exact taking.allocPage page
  | some root =>
    obtain ⟨pool, tracked, run⟩ := bind_eq_ok.mp run
    obtain ⟨_, -, run⟩ := bind_eq_ok.mp run
    obtain ⟨-, rfl⟩ := by simpa using run
    exact taking.fill (block_of_page page) tracked rfl (taking.refl _)

theorem forkPage {vma : VMA} {v : Nat} (run : forkPage p parent child vma st v = .ok st') :
    R st st' := by
  obtain ⟨found, -, run⟩ := bind_eq_ok.mp run
  cases found with
  | none =>
    obtain rfl := Except.ok.inj run
    exact taking.refl _
  | some f =>
    obtain ⟨⟨a, st₁⟩, page, run⟩ := bind_eq_ok.mp run
    cases a with
    | none => cases run
    | some dst =>
      obtain ⟨pool, tracked, run⟩ := bind_eq_ok.mp run
      split at run
      · cases run
      · obtain ⟨_, -, run⟩ := bind_eq_ok.mp run
        obtain ⟨_, -, run⟩ := bind_eq_ok.mp run
        obtain ⟨⟨r, st₂⟩, mapped, run⟩ := bind_eq_ok.mp run
        cases r with
        | none => cases run
        | some =>
          obtain rfl := Except.ok.inj run
          exact taking.fill (block_of_page page) tracked rfl (taking.map mapped)

theorem forkAreas {rest : List VMA} {r : Option AddressSpace}
    (run : forkAreas p parent rest child st = .ok (r, st')) : R st st' := by
  induction rest generalizing child st with
  | nil =>
    obtain ⟨-, rfl⟩ := by simpa [Ferrum.forkAreas] using run
    exact taking.refl _
  | cons v rest ih =>
    rw [Ferrum.forkAreas] at run
    split at run
    · obtain ⟨-, rfl⟩ := by simpa using run
      exact taking.refl _
    · obtain ⟨st₁, pages, run⟩ := bind_eq_ok.mp run
      exact taking.trans (taking.forPages taking.forkPage pages) (ih run)

theorem mapIdentity {v : Nat} (run : mapIdentity p space st v = .ok st') : R st st' := by
  obtain ⟨⟨r, st₁⟩, mapped, run⟩ := bind_eq_ok.mp run
  cases r with
  | none => cases run
  | some =>
    obtain rfl := Except.ok.inj run
    exact taking.map mapped

theorem forkSpace {image : ImageRange} {kernelPml4 id newPid : Nat} {r : Option AddressSpace}
    (run : forkSpace p image kernelPml4 id parent newPid st = .ok (r, st')) : R st st' := by
  obtain ⟨⟨root, st₁⟩, new, run⟩ := bind_eq_ok.mp run
  refine taking.trans (taking.newUser new) ?_
  cases root with
  | none =>
    obtain ⟨-, rfl⟩ := by simpa using run
    exact taking.refl _
  | some pml4 =>
    obtain ⟨⟨c, st₂⟩, areas, run⟩ := bind_eq_ok.mp run
    refine taking.trans (taking.forkAreas areas) ?_
    cases c with
    | none =>
      obtain ⟨-, rfl⟩ := by simpa using run
      exact taking.refl _
    | some child =>
      obtain ⟨_, -, run⟩ := bind_eq_ok.mp run
      obtain ⟨_, -, run⟩ := bind_eq_ok.mp run
      obtain ⟨st₃, mapped, run⟩ := bind_eq_ok.mp run
      obtain ⟨-, rfl⟩ := by simpa using run
      obtain ⟨_, -, mapped⟩ := bind_eq_ok.mp mapped
      have half : R st₂ (st₂.copyKernelHalf parent.pml4 child.pml4) := taking.quiet rfl rfl
      exact taking.trans half (taking.forPages taking.mapIdentity mapped)

theorem forkImage {image : ImageRange} {kernelPml4 id newPid : Nat} {parent : Image}
    {frame : List UInt8} {r : Option Image}
    (run : forkImage p image kernelPml4 id parent newPid frame st = .ok (r, st')) : R st st' := by
  obtain ⟨⟨kstack, st₁⟩, block, run⟩ := bind_eq_ok.mp run
  cases kstack with
  | none =>
    obtain ⟨-, rfl⟩ := by simpa using run
    exact taking.allocBlock block
  | some kstack =>
    obtain ⟨pool, tracked, run⟩ := bind_eq_ok.mp run
    obtain ⟨_, -, run⟩ := bind_eq_ok.mp run
    obtain ⟨⟨child, st₂⟩, copied, run⟩ := bind_eq_ok.mp run
    have all := taking.fill block tracked rfl (taking.forkSpace copied)
    cases child with
    | none =>
      obtain ⟨-, rfl⟩ := by simpa using run
      exact all
    | some space =>
      obtain ⟨_, -, run⟩ := bind_eq_ok.mp run
      obtain ⟨-, rfl⟩ := by simpa using run
      exact all

theorem handlePageFault {addr : Nat} {r : Except String Unit}
    (run : space.handlePageFault p st addr = .ok (r, st')) : R st st' := by
  obtain ⟨there, -, run⟩ := bind_eq_ok.mp run
  split at run
  · obtain ⟨-, rfl⟩ := by simpa using run
    exact taking.refl _
  · split at run
    · obtain ⟨-, rfl⟩ := by simpa using run
      exact taking.refl _
    · obtain ⟨⟨a, st₁⟩, block, run⟩ := bind_eq_ok.mp run
      cases a with
      | none =>
        obtain ⟨-, rfl⟩ := by simpa using run
        exact taking.allocBlock block
      | some phys =>
        obtain ⟨pool, tracked, run⟩ := bind_eq_ok.mp run
        obtain ⟨_, -, run⟩ := bind_eq_ok.mp run
        obtain ⟨⟨r', st₂⟩, mapped, run⟩ := bind_eq_ok.mp run
        have all := taking.fill block tracked rfl (taking.map mapped)
        cases r' with
        | none =>
          obtain ⟨-, rfl⟩ := by simpa using run
          exact all
        | some =>
          obtain ⟨-, rfl⟩ := by simpa using run
          exact all

theorem loadPages {data : List UInt8} {ph : Elf.Phdr} {mapStart n idx : Nat} {r : Except String Unit}
    (run : Elf.loadPages p space data ph mapStart n idx st = .ok (r, st')) : R st st' := by
  induction n generalizing idx st with
  | zero =>
    obtain ⟨-, rfl⟩ := by simpa [Elf.loadPages] using run
    exact taking.refl _
  | succ n ih =>
    rw [Elf.loadPages] at run
    obtain ⟨_, -, run⟩ := bind_eq_ok.mp run
    obtain ⟨⟨a, st₁⟩, block, run⟩ := bind_eq_ok.mp run
    cases a with
    | none =>
      obtain ⟨-, rfl⟩ := by simpa using run
      exact taking.allocBlock block
    | some phys =>
      obtain ⟨pool, tracked, run⟩ := bind_eq_ok.mp run
      obtain ⟨_, -, run⟩ := bind_eq_ok.mp run
      obtain ⟨st₂, copied, run⟩ := bind_eq_ok.mp run
      obtain ⟨⟨r', st₃⟩, mapped, run⟩ := bind_eq_ok.mp run
      have same : st₂.pool = pool := copyFileBytes_pool copied
      have all := taking.fill block tracked same (taking.map mapped)
      cases r' with
      | none =>
        obtain ⟨-, rfl⟩ := by simpa using run
        exact all
      | some => exact taking.trans all (ih run)

theorem loadSegment {data : List UInt8} {ph : Elf.Phdr} {r : Except String Unit}
    {space' : AddressSpace} (run : Elf.loadSegment p space st data ph = .ok (r, space', st')) :
    R st st' := by
  unfold Elf.loadSegment at run
  split at run
  · cases run
    exact taking.refl _
  split at run
  · cases run
    exact taking.refl _
  obtain ⟨⟨start, stop, bytes⟩, -, run⟩ := bind_eq_ok.mp run
  simp only at run
  split at run
  · cases run
    exact taking.refl _
  · obtain ⟨⟨r', st₁⟩, loaded, run⟩ := bind_eq_ok.mp run
    cases run
    exact taking.loadPages loaded

theorem loadHeaders {data : List UInt8} {n i : Nat} {r : Except String Unit} {space' : AddressSpace}
    (run : Elf.loadHeaders p data n i space st = .ok (r, space', st')) : R st st' := by
  induction n generalizing i space st with
  | zero =>
    cases run
    exact taking.refl _
  | succ n ih =>
    rw [Elf.loadHeaders] at run
    split at run
    · exact ih run
    · obtain ⟨⟨r', space₁, st₁⟩, segment, run⟩ := bind_eq_ok.mp run
      cases r' with
      | error e =>
        cases run
        exact taking.loadSegment segment
      | ok => exact taking.trans (taking.loadSegment segment) (ih run)

theorem load {data : List UInt8} {r : Except String Nat} {space' : AddressSpace}
    (run : Elf.load p space st data = .ok (r, space', st')) : R st st' := by
  unfold Elf.load at run
  split at run
  · cases run
    exact taking.refl _
  · obtain ⟨⟨r', space₁, st₁⟩, headers, run⟩ := bind_eq_ok.mp run
    cases run
    exact taking.loadHeaders headers

theorem mapFresh {noFrame noMap : String} {v : Nat}
    (run : mapFresh p space noFrame noMap st v = .ok st') : R st st' := by
  obtain ⟨⟨frame, st₁⟩, page, run⟩ := bind_eq_ok.mp run
  cases frame with
  | none => cases run
  | some phys =>
    obtain ⟨⟨r, st₂⟩, mapped, run⟩ := bind_eq_ok.mp run
    cases r with
    | none => cases run
    | some =>
      obtain rfl := Except.ok.inj run
      exact taking.trans (taking.allocPage page) (taking.map mapped)

theorem mapTcb {image image' : Image} {canary : Nat}
    (run : mapTcb p image canary st = .ok (image', st')) : R st st' := by
  obtain ⟨⟨frame, st₁⟩, page, run⟩ := bind_eq_ok.mp run
  cases frame with
  | none =>
    obtain ⟨-, rfl⟩ := Prod.mk.inj (Except.ok.inj run)
    exact taking.allocPage page
  | some phys =>
    obtain ⟨_, -, run⟩ := bind_eq_ok.mp run
    obtain ⟨⟨r, st₂⟩, mapped, run⟩ := bind_eq_ok.mp run
    cases r with
    | none => cases run
    | some =>
      obtain ⟨-, rfl⟩ := Prod.mk.inj (Except.ok.inj run)
      have written : R st₁ { st₁ with mem := writeTcb st₁.mem phys canary } := taking.quiet rfl rfl
      exact taking.trans (taking.allocPage page) (taking.trans written (taking.map mapped))

end Taking

/-! ## Giving back -/

namespace Giving

variable (giving : Giving R)
include giving

theorem unmapPage {v : Nat} (run : space.unmapPage p st v = .ok st') : R st st' := by
  obtain ⟨⟨r, st₁⟩, out, run⟩ := bind_eq_ok.mp run
  cases r with
  | none =>
    obtain rfl := Except.ok.inj run
    exact giving.unmap out
  | some f => exact giving.trans (giving.unmap out) (giving.release run)

theorem clearPage {v : Nat} (run : space.clearPage p st v = .ok st') : R st st' := by
  obtain ⟨frame, -, run⟩ := bind_eq_ok.mp run
  cases frame with
  | none =>
    obtain rfl := Except.ok.inj run
    exact giving.refl _
  | some f =>
    obtain ⟨st₁, released, run⟩ := bind_eq_ok.mp run
    obtain ⟨⟨r, st₂⟩, out, run⟩ := bind_eq_ok.mp run
    obtain rfl := Except.ok.inj run
    exact giving.trans (giving.release released) (giving.unmap out)

theorem clearUser {space' : AddressSpace} (run : space.clearUser p st = .ok (space', st')) :
    R st st' := by
  obtain ⟨st₁, pages, run⟩ := bind_eq_ok.mp run
  obtain ⟨-, rfl⟩ := Prod.mk.inj (Except.ok.inj run)
  exact giving.foldlM (giving.forPages giving.clearPage) pages

theorem munmap {addr size : Nat} {r : Except String Unit} {space' : AddressSpace}
    (run : space.munmap p st addr size = .ok (r, space', st')) : R st st' := by
  obtain ⟨⟨start, stop⟩, -, run⟩ := bind_eq_ok.mp run
  simp only at run
  split at run
  · cases run
    exact giving.refl _
  · obtain ⟨st₁, pages, run⟩ := bind_eq_ok.mp run
    cases run
    exact giving.forPages giving.unmapPage pages

theorem punchOne {holeStart holeEnd : Nat} {vmas vmas' : List VMA} {vma : VMA} {r : Except String Unit}
    (run : space.punchOne p holeStart holeEnd vmas st vma = .ok (r, vmas', st')) : R st st' := by
  obtain ⟨st₁, pages, run⟩ := bind_eq_ok.mp run
  have one := giving.forPages giving.unmapPage pages
  split at run
  · cases run
    exact one
  · split at run
    · cases run
      exact one
    · cases run
      exact one

theorem punchAll {holeStart holeEnd : Nat} {rest vmas vmas' : List VMA} {r : Except String Unit}
    (run : space.punchAll p holeStart holeEnd rest vmas st = .ok (r, vmas', st')) : R st st' := by
  induction rest generalizing vmas st with
  | nil =>
    cases run
    exact giving.refl _
  | cons v rest ih =>
    rw [AddressSpace.punchAll] at run
    obtain ⟨⟨r', vmas₁, st₁⟩, one, run⟩ := bind_eq_ok.mp run
    cases r' with
    | error e =>
      cases run
      exact giving.punchOne one
    | ok => exact giving.trans (giving.punchOne one) (ih run)

theorem mmapFixed {addr size : Nat} {flags : VMAFlags} {kind : VMAKind} {r : Except String Nat}
    {space' : AddressSpace} (run : space.mmapFixed p st addr size flags kind = .ok (r, space', st')) :
    R st st' := by
  obtain ⟨⟨start, stop⟩, -, run⟩ := bind_eq_ok.mp run
  obtain ⟨⟨r', vmas, st₁⟩, punched, run⟩ := bind_eq_ok.mp run
  have all := giving.punchAll punched
  cases r' with
  | error e =>
    cases run
    exact all
  | ok =>
    simp only at run
    split at run
    · cases run
      exact all
    · cases run
      exact all

section Tables

variable (free : ∀ {p owner st st' a order}, Machine.freeBlock p owner st a order = .ok st' → R st st')
include free

theorem freePt {t : Nat} (run : space.freePt p st t = .ok st') : R st st' := by
  obtain ⟨_, -, run⟩ := bind_eq_ok.mp run
  have cleared := (clearEntries_spec st t (List.range 512) fun i => List.mem_range.mp).1
  exact giving.trans (giving.quiet (congrArg Pool.log cleared) (congrArg Pool.owners cleared)) (free run)

theorem freeBelow {sub : Machine Pool → Nat → Except Stop (Machine Pool)}
    (step : ∀ {st st' a}, sub st a = .ok st' → R st st') {t : Nat}
    (run : space.freeBelow p sub st t = .ok st') : R st st' := by
  obtain ⟨_, -, run⟩ := bind_eq_ok.mp run
  obtain ⟨st₁, below, run⟩ := bind_eq_ok.mp run
  refine giving.trans (giving.foldlM (fun {st st' i} one => ?_) below) (free run)
  simp only at one
  split at one
  · exact step one
  · obtain rfl := Except.ok.inj one
    exact giving.refl _

theorem destroy (run : space.destroy p st = .ok st') : R st st' := by
  obtain ⟨st₁, pages, run⟩ := bind_eq_ok.mp run
  obtain ⟨st₂, tables, run⟩ := bind_eq_ok.mp run
  obtain ⟨_, -, tables⟩ := bind_eq_ok.mp tables
  refine giving.trans (giving.foldlM (giving.forPages giving.unmapPage) pages)
    (giving.trans (giving.foldlM (fun {st st' i} one => ?_) tables) (giving.release run))
  simp only at one
  split at one
  · obtain ⟨st₃, pdpt, one⟩ := bind_eq_ok.mp one
    obtain rfl := Except.ok.inj one
    exact giving.trans (giving.freeBelow free (giving.freeBelow free (giving.freePt free)) pdpt)
      (giving.quiet rfl rfl)
  · obtain rfl := Except.ok.inj one
    exact giving.refl _

end Tables

end Giving

/-- `execve` gives back what the caller had and then takes what the new program needs. -/
theorem execImage_parts {image image' : Image} {file : List UInt8} {stack : StackImage}
    {r : Except String Nat} (run : execImage p image file stack st = .ok (r, image', st')) :
    ∃ mid, (∀ R, Giving R → R st mid) ∧ ∀ R, Taking R → R mid st' := by
  obtain ⟨⟨space, st₁⟩, cleared, run⟩ := bind_eq_ok.mp run
  obtain ⟨⟨loaded, space₁, st₂⟩, load, run⟩ := bind_eq_ok.mp run
  refine ⟨st₁, fun R giving => giving.clearUser cleared, fun R taking => ?_⟩
  cases loaded with
  | error e =>
    cases run
    exact taking.load load
  | ok entry =>
    obtain ⟨brk, -, run⟩ := bind_eq_ok.mp run
    obtain ⟨st₃, pages, run⟩ := bind_eq_ok.mp run
    obtain ⟨st₄, stores, run⟩ := bind_eq_ok.mp run
    obtain ⟨⟨image₁, st₅⟩, tcb, run⟩ := bind_eq_ok.mp run
    cases run
    exact taking.trans (taking.load load) (taking.trans (taking.foldlM taking.mapFresh pages)
      (taking.trans (taking.buildStack stores) (taking.mapTcb tcb)))

/-! ## The log -/

/-- Only events of one sort have been added to the log. -/
def Logs (event : Owner → Block → Event) (st st' : Machine Pool) : Prop :=
  ∃ l : List (Owner × Block), st'.pool.log = l.map (fun e => event e.1 e.2) ++ st.pool.log

namespace Logs

variable {event : Owner → Block → Event}

theorem trans (h : Logs event st st') (h' : Logs event st' st'') : Logs event st st'' := by
  obtain ⟨l, hl⟩ := h
  obtain ⟨l', hl'⟩ := h'
  exact ⟨l' ++ l, by rw [hl', hl, List.map_append, List.append_assoc]⟩

theorem closed : Quiet (Logs event) := ⟨fun same _ => ⟨[], by simpa using same⟩, trans⟩

theorem allocBlock {a order : Nat} (run : st.allocBlock p owner order = .ok (some a, st')) :
    Logs .alloc st st' := ⟨[(owner, ⟨a, order⟩)], (Machine.allocBlock_log run).1⟩

theorem freeBlock {a order : Nat} (run : st.freeBlock p owner a order = .ok st') :
    Logs .free st st' := ⟨[(owner, ⟨a, order⟩)], (Machine.freeBlock_log run).1⟩

theorem taking : Taking (Logs .alloc) := by
  refine ⟨closed, allocBlock, fun block tracked => ?_⟩
  obtain rfl := Pool.track_owners tracked
  obtain ⟨l, hl⟩ := allocBlock block
  exact ⟨l, hl⟩

theorem giving : Giving (Logs .free) := by
  refine ⟨closed, fun {p space st st' f} run => ?_⟩
  obtain ⟨st₁, free, run⟩ := bind_eq_ok.mp run
  obtain rfl := Except.ok.inj run
  obtain ⟨owners, untracked⟩ := st₁.pool.untrack_owners f
  obtain ⟨l, hl⟩ := freeBlock free
  exact ⟨l, by rw [untracked, ← hl]⟩

end Logs
end Ferrum
