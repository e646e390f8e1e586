import Ferrum.AddressSpace.Teardown
import Ferrum.Kernel.Image

/-!
# What fork copies

The child starts with an empty tree of its own. For each area of the parent it gets an area and, for
each page that the parent has there, a frame of its own with the same bytes; then the kernel's half of
the top-level table and the pages of the kernel image are put in. Nothing else that is held changes on
the way, so what is copied is what the parent had at the start.
-/
namespace Ferrum

open Machine (Local PoolInv Own)

variable {S img : Set Nat} {st st' base : Machine Pool} {owner : Owner} {root : Nat}
  {tab tab' src : Tables} {p : Profile} {v f : Nat} {space parent child : AddressSpace}

/-- The flags and the bytes of a page, whatever frame it has. -/
def Page.content (pg : Page) : PageFlags × (Nat → UInt8) := (pg.flags, pg.bytes)

/-! ## The kernel's part of a user table -/

theorem Owned.copyKernelHalf (inv : PoolInv S st) (own : Owned img st owner root tab) (source : Nat) :
    Local S owner st (st.copyKernelHalf source root) ∧
      Owned img (st.copyKernelHalf source root) owner root tab ∧
      (∀ q, view (st.copyKernelHalf source root).mem tab q = view st.mem tab q) ∧
      ∀ q, UserPage img q → pageAt (st.copyKernelHalf source root).mem tab q = pageAt st.mem tab q := by
  have outside {x} (hx : x < root + 8 * 256 ∨ root + 8 * 256 + 8 * 256 ≤ x) :
      (st.copyKernelHalf source root).mem x = st.mem x := Memory.copy_outside hx
  have elsewhere {x} (hx : x ∉ pageBytes root) : (st.copyKernelHalf source root).mem x = st.mem x := by
    refine outside ?_
    simp only [pageBytes, Set.mem_Ico, PAGE_SIZE] at hx
    omega
  have other {t} (ht : PAGE_SIZE ∣ t) (ne : t ≠ root) :
      Set.EqOn (st.copyKernelHalf source root).mem st.mem (pageBytes t) := fun x hx =>
    elsewhere (Space.pageBytes_disjoint ht (own.tree.frame own.tree.root).aligned ne hx)
  have read {π t i} (h : tab π = some t) (slot : Slot π i) :
      readEntry (st.copyKernelHalf source root).mem t i = readEntry st.mem t i := by
    by_cases top : t = root
    · subst top
      have low := slot.2 (own.tree.inj h own.tree.root)
      exact Memory.read64_congr fun x _ _ => outside (by omega)
    · exact readEntry_congr slot.1 (other (own.tree.frame h).aligned top)
  have views : ∀ q, view (st.copyKernelHalf source root).mem tab q = view st.mem tab q := by
    intro q
    cases h : tab (pagePath q) with
    | none => rw [Tree.view_of_none h, Tree.view_of_none h]
    | some t =>
      rw [Tree.view_of_some h, Tree.view_of_some h,
        read h ⟨Nat.mod_lt _ (by omega), by simp [pagePath]⟩]
  refine ⟨.writePage inv (own.tables own.tree.root) fun x => elsewhere,
    ⟨⟨own.tree.congr_entries read, own.tables⟩, ?_, ?_, ?_⟩, views, fun q user => ?_⟩
  · exact fun user seen => own.pages user (views _ ▸ seen)
  · exact fun hq hr seen seen' => own.inj hq hr (views _ ▸ seen) (views _ ▸ seen')
  · exact fun lower inside seen => own.image lower inside (views _ ▸ seen)
  · refine pageAt_congr (views q) fun g flags seen => ?_
    obtain ⟨held, notTable⟩ := own.pages user seen
    exact other (inv.tableFrame held).aligned fun top => notTable [] (top ▸ own.tree.root)

theorem Owned.mapIdentity (inv : PoolInv S st) (own : Owned img st space.owner space.pml4 tab)
    (lower : v < 2 ^ 47) (aligned : PAGE_SIZE ∣ v) (image : pageOf v ∈ img)
    (run : mapIdentity p space st v = .ok st') :
    ∃ tab', Grown S space.owner space.pml4 st tab st' tab' ∧
      Owned img st' space.owner space.pml4 tab' ∧
      ∀ q, UserPage img q → pageAt st'.mem tab' q = pageAt st.mem tab q := by
  have addr : PageAddr v := ⟨aligned, lt_trans lower (by decide)⟩
  obtain ⟨r, st₁, tab', mapped, grown, -, views⟩ :=
    own.toRooted.map inv p (pageOf_lower lower) addr .kernel
  have elsewhere {q} (hq : LowerPage q) (ne : q ≠ pageOf v) :
      view st₁.mem tab' q = view st.mem tab q := by
    rw [views q hq.lt, Function.update_of_ne ne, ite_self]
  obtain ⟨done, rfl⟩ : r = some () ∧ st₁ = st' := by
    unfold Ferrum.mapIdentity at run
    obtain ⟨⟨r', st₂⟩, mapped', run⟩ := bind_eq_ok.mp run
    obtain ⟨rfl, rfl⟩ : r = r' ∧ st₁ = st₂ := by simpa using mapped.symm.trans mapped'
    cases r with
    | none => cases run
    | some => exact ⟨rfl, Except.ok.inj run⟩
  subst done
  refine ⟨tab', grown, grown.owned own (fun q => elsewhere) ?_, fun q user => ?_⟩
  · intro g flags seen
    rw [views _ (pageOf_lower lower).lt, Function.update_self] at seen
    split at seen
    · obtain ⟨-, rfl⟩ := by simpa using seen
      exact Or.inr ⟨fun user => absurd image user.off, fun _ => rfl⟩
    · exact Or.inl seen
  · refine grown.pageAt own user (elsewhere user.lower ?_)
    rintro rfl
    exact user.off image

theorem Grown.exact (grown : Grown S owner root st tab st' tab') (exact : Exact img st owner tab)
    (frames : ∀ {q f}, UserPage img q → frameAt st.mem tab q = some f →
      frameAt st'.mem tab' q = some f) : Exact img st' owner tab' := by
  intro b held
  rcases grown.holds.mp held with old | ⟨single, table⟩
  · obtain ⟨single, ⟨π, table⟩ | ⟨q, user, seen⟩⟩ := exact old
    · exact ⟨single, Or.inl ⟨π, grown.kept table⟩⟩
    · exact ⟨single, Or.inr ⟨q, user, frames user seen⟩⟩
  · exact ⟨single, Or.inl table⟩

theorem frameAt_of_pageAt {m m' : Memory} {q : Nat} (same : pageAt m' tab' q = pageAt m tab q) :
    frameAt m' tab' q = frameAt m tab q := by
  have frames (m : Memory) (tab : Tables) : frameAt m tab q = (pageAt m tab q).map Page.frame := by
    simp [frameAt, pageAt, Function.comp_def]
  rw [frames, frames, same]

theorem Exact.copyKernelHalf {source : Nat} (exact : Exact img st owner tab)
    (pages : ∀ q, UserPage img q →
      pageAt (st.copyKernelHalf source root).mem tab q = pageAt st.mem tab q) :
    Exact img (st.copyKernelHalf source root) owner tab := by
  intro b held
  obtain ⟨single, table | ⟨q, hq, seen⟩⟩ := exact held
  · exact ⟨single, Or.inl table⟩
  · exact ⟨single, Or.inr ⟨q, hq, (frameAt_of_pageAt (pages q hq)).trans seen⟩⟩

/-- The pages of the kernel image. -/
def ImageRange.pages (image : ImageRange) : Set Nat :=
  pagesIn (image.base / PAGE_SIZE * PAGE_SIZE) (roundUp (image.base + image.size))

/-- An image in the part of physical memory that the higher-half window shows. -/
def ImageRange.Low (image : ImageRange) : Prop := image.base + image.size ≤ DIRECT_MAP_END

theorem ImageRange.Low.bounds {image : ImageRange} (low : image.Low) (p : Profile) :
    image.bounds p = .ok (image.base / PAGE_SIZE * PAGE_SIZE, roundUp (image.base + image.size)) := by
  simp only [Low, DIRECT_MAP_END] at low
  simp only [ImageRange.bounds, p.add_ok (show image.base + image.size < 2 ^ 64 by omega),
    p.add_ok (show image.base + image.size + 0xfff < 2 ^ 64 by omega), ok_bind, pure_eq_ok,
    alignDown_page (show image.base < 2 ^ 64 by omega),
    alignDown_page (show image.base + image.size + 0xfff < 2 ^ 64 by omega)]
  rfl

theorem ImageRange.order (image : ImageRange) :
    image.base / PAGE_SIZE * PAGE_SIZE ≤ roundUp (image.base + image.size) := by
  simp only [roundUp, PAGE_SIZE]
  omega

theorem ImageRange.Low.stop {image : ImageRange} (low : image.Low) :
    roundUp (image.base + image.size) ≤ 2 ^ 47 := by
  simp only [Low, DIRECT_MAP_END] at low
  simp only [roundUp, PAGE_SIZE]
  omega

/-- A part of the kernel image has gone into the tables beside the user pages. -/
structure Imaged (S img : Set Nat) (space : AddressSpace) (st : Machine Pool) (tab : Tables)
    (st' : Machine Pool) (tab' : Tables) : Prop where
  step : Local S space.owner st st'
  own : Owned img st' space.owner space.pml4 tab'
  exact : Exact img st' space.owner tab'
  pages : ∀ q, UserPage img q → pageAt st'.mem tab' q = pageAt st.mem tab q

theorem Imaged.page (imaged : Imaged S img space st tab st' tab') (lower : v < 2 ^ 47)
    (aligned : PAGE_SIZE ∣ v) (image : pageOf v ∈ img) {st'' : Machine Pool}
    (run : mapIdentity p space st' v = .ok st'') : ∃ tab'', Imaged S img space st tab st'' tab'' := by
  obtain ⟨tab'', grown, own, same⟩ := imaged.own.mapIdentity imaged.step.inv lower aligned image run
  refine ⟨tab'', imaged.step.trans grown.step, own, grown.exact imaged.exact fun user seen => ?_,
    fun q user => (same q user).trans (imaged.pages q user)⟩
  exact (frameAt_of_pageAt (same _ user)).trans seen

theorem Owned.mapKernelImage {image : ImageRange} (low : image.Low) (inv : PoolInv S st)
    (own : Owned image.pages st space.owner space.pml4 tab)
    (exact : Exact image.pages st space.owner tab)
    (run : mapKernelImage p space st image = .ok st') :
    ∃ tab', Imaged S image.pages space st tab st' tab' := by
  unfold Ferrum.mapKernelImage at run
  rw [low.bounds p, ok_bind] at run
  refine forPages_run (fun _ st' => ∃ tab', Imaged S image.pages space st tab st' tab')
    (Nat.dvd_mul_left _ _) (dvd_roundUp _) image.order (lt_of_le_of_lt low.stop (by omega)) ?_ run
    ⟨tab, .refl inv, own, exact, fun _ _ => rfl⟩
  rintro addr st₁ st₂ aligned first last ⟨tab₁, imaged⟩ one
  obtain ⟨inside, -⟩ := pagesIn_step (Nat.dvd_mul_left _ _) aligned first last low.stop
  exact imaged.page (lt_of_lt_of_le last low.stop) aligned inside one

/-! ## One page -/

theorem bytesAt_copy {m : Memory} {src dst : Nat} : bytesAt (m.copy src dst PAGE_SIZE) dst =
    bytesAt m src := by
  funext i
  unfold bytesAt
  split
  · rename_i inside
    exact Memory.copy_inside inside
  · rfl

/-- The copy of a page, if the parent has one, lies in a frame of the child alone. -/
theorem Owned.forkPage {vma : VMA} {found : Option Nat} (inv : PoolInv S st)
    (own : Owned img st child.owner child.pml4 tab) (exact : Exact img st child.owner tab)
    (user : UserPage img (pageOf v)) (vacant : view st.mem tab (pageOf v) = none)
    (parentPage : Machine.translate st.mem parent.pml4 v = .ok found)
    (backed : ∀ f, found = some f → ∃ o ≠ child.owner, st.holds o ⟨f, 0⟩)
    (run : forkPage p parent child vma st v = .ok st') :
    ∃ tab', Local S child.owner st st' ∧ Owned img st' child.owner child.pml4 tab' ∧
      Exact img st' child.owner tab' ∧
      ∀ q, UserPage img q → (pageAt st'.mem tab' q).map Page.content =
        if q = pageOf v then found.map fun f => (vma.flags.toPageFlags, bytesAt st.mem f)
        else (pageAt st.mem tab q).map Page.content := by
  unfold Ferrum.forkPage at run
  rw [parentPage, ok_bind] at run
  cases found with
  | none =>
    obtain rfl := Except.ok.inj run
    refine ⟨tab, .refl inv, own, exact, fun q _ => ?_⟩
    split
    · rename_i here
      rw [here, pageAt_eq_none.mpr vacant]
      rfl
    · rfl
  | some f =>
    obtain ⟨r, st₁, alloc, -, step₁, own₁, same₁, -, result⟩ := own.alloc inv p
    simp only [alloc, ok_bind] at run
    cases r with
    | none => cases run
    | some dst =>
      obtain ⟨table, fresh, spare, holds₁⟩ := result
      obtain ⟨pool, tracked, run⟩ := bind_eq_ok.mp run
      obtain rfl := Pool.track_owners tracked
      obtain ⟨o, ne, held⟩ := backed f rfl
      have apart : f ≠ dst := by
        rintro rfl
        exact fresh ⟨o, held⟩
      rw [if_neg apart] at run
      obtain ⟨_, -, run⟩ := bind_eq_ok.mp run
      obtain ⟨_, -, run⟩ := bind_eq_ok.mp run
      have copied : ∀ x, x ∉ pageBytes dst → st₁.mem.copy f dst PAGE_SIZE x = st₁.mem x := by
        intro x hx
        refine Memory.copy_outside ?_
        simp only [pageBytes, Set.mem_Ico] at hx
        omega
      obtain ⟨r, st₂, tab', mapped, step₂, own₂, holds₂, kept, -, shown⟩ := own₁.place step₁.inv p user
        spare copied (st₁.pool.owners ++ [(dst, ⟨vma.kind.ownerTag, child.ownerPid, 0⟩)])
        vma.flags.toPageFlags
      simp only [AddressSpace.pages, mapped, ok_bind] at run
      cases r with
      | none => cases run
      | some =>
        obtain rfl := Except.ok.inj run
        have there := shown _ user
        rw [if_pos ⟨rfl, rfl⟩] at there
        have elsewhere {q} (hq : UserPage img q) (ne : q ≠ pageOf v) :
            pageAt st₂.mem tab' q = pageAt st.mem tab q := by
          rw [shown q hq, if_neg fun both => ne both.2, same₁ q hq]
        refine ⟨tab', step₁.trans step₂, own₂, fun {b} held => ?_, fun q hq => ?_⟩
        · rcases holds₂.mp held with old | ⟨single, table⟩
          · rcases holds₁.mp old with rfl | older
            · exact ⟨rfl, Or.inr ⟨pageOf v, user,
                frameAt_eq_some.mpr ⟨_, (pageAt_eq_some.mp there).1⟩⟩⟩
            · obtain ⟨single, ⟨π, table⟩ | ⟨q, hq, seen⟩⟩ := exact older
              · exact ⟨single, Or.inl ⟨π, kept table⟩⟩
              · have ne : q ≠ pageOf v := by
                  rintro rfl
                  simp [frameAt, vacant] at seen
                exact ⟨single, Or.inr ⟨q, hq, (frameAt_of_pageAt (elsewhere hq ne)).trans seen⟩⟩
          · exact ⟨single, Or.inl table⟩
        · by_cases here : q = pageOf v
          · rw [if_pos here, here, there]
            rw [Option.map_some, Option.map_some, Page.content, bytesAt_copy,
              bytesAt_congr (step₁.page held ne)]
            rfl
          · rw [if_neg here, elsewhere hq here]

/-! ## All pages -/

/-- The tables of the parent, and the frames behind the pages of its areas, are held by somebody. -/
structure Source (st : Machine Pool) (parent : AddressSpace) (src : Tables) : Prop where
  tree : Tree st.mem parent.pml4 src
  tables : ∀ {π t}, src π = some t → t ∈ st.frames
  pages : ∀ {q f}, q ∈ areaPages parent.vmas → frameAt st.mem src q = some f → f ∈ st.frames

/-- Work for an owner that held nothing at first does not show in the parent. -/
theorem Source.later (source : Source base parent src) (fresh : ∀ b, ¬ base.holds owner b)
    (step : Local S owner base st) :
    Tree st.mem parent.pml4 src ∧ (∀ q, view st.mem src q = view base.mem src q) ∧
      ∀ {q f}, q ∈ areaPages parent.vmas → frameAt base.mem src q = some f →
        (∃ o ≠ owner, st.holds o ⟨f, 0⟩) ∧ bytesAt st.mem f = bytesAt base.mem f := by
  have other {f o} (h : base.holds o ⟨f, 0⟩) : o ≠ owner := by
    rintro rfl
    exact fresh _ h
  have tables : ∀ π t, src π = some t → Set.EqOn st.mem base.mem (pageBytes t) := by
    intro π t h
    obtain ⟨o, ho⟩ := source.tables h
    exact step.page ho (other ho)
  refine ⟨source.tree.congr tables, Tree.view_congr tables, fun {q f} inside seen => ?_⟩
  obtain ⟨o, ho⟩ := source.pages inside seen
  exact ⟨⟨o, other ho, (step.holds (other ho)).mpr ho⟩, bytesAt_congr (step.page ho (other ho))⟩

/-- What a copy of the given areas shows: the bytes of the parent's page under the flags of the
area. -/
def shadow (vmas : List VMA) (m : Memory) (src : Tables) (q : Nat) :
    Option (PageFlags × (Nat → UInt8)) :=
  (Vmas.attr vmas (q * PAGE_SIZE)).bind fun attr =>
    (frameAt m src q).map fun f => (attr.1.toPageFlags, bytesAt m f)

/-- The child so far: a tree of its own that shows the given pages and nothing more. -/
def Copying (S img : Set Nat) (base : Machine Pool) (child : AddressSpace)
    (shown : Nat → Option (PageFlags × (Nat → UInt8))) (st : Machine Pool) : Prop :=
  ∃ tab, Local S child.owner base st ∧ Owned img st child.owner child.pml4 tab ∧
    Exact img st child.owner tab ∧
    ∀ q, UserPage img q → (pageAt st.mem tab q).map Page.content = shown q

/-- The pages of an area up to an address, copied over what was shown before. -/
def overlay (vma : VMA) (addr : Nat) (m : Memory) (src : Tables)
    (shown : Nat → Option (PageFlags × (Nat → UInt8))) (q : Nat) :
    Option (PageFlags × (Nat → UInt8)) :=
  if vma.start ≤ q * PAGE_SIZE ∧ q * PAGE_SIZE < addr then
    (frameAt m src q).map fun f => (vma.flags.toPageFlags, bytesAt m f)
  else shown q

theorem overlay_start (vma : VMA) (m : Memory) (src : Tables)
    (shown : Nat → Option (PageFlags × (Nat → UInt8))) : overlay vma vma.start m src shown = shown := by
  funext q
  exact if_neg (by omega)

theorem overlay_step {vma : VMA} {addr : Nat} {m : Memory}
    {shown : Nat → Option (PageFlags × (Nat → UInt8))} (aligned : PAGE_SIZE ∣ addr)
    (low : vma.start ≤ addr) (below : addr < 2 ^ 47) :
    overlay vma (addr + PAGE_SIZE) m src shown = Function.update (overlay vma addr m src shown)
      (pageOf addr)
      ((frameAt m src (pageOf addr)).map fun f => (vma.flags.toPageFlags, bytesAt m f)) := by
  rw [pageOf_eq below]
  obtain ⟨k, rfl⟩ := aligned
  funext q
  by_cases here : q = PAGE_SIZE * k / PAGE_SIZE
  · subst here
    rw [Function.update_self, overlay, if_pos]
    simp only [PAGE_SIZE] at *
    omega
  · rw [Function.update_of_ne here]
    unfold overlay
    refine if_congr ?_ rfl rfl
    simp only [PAGE_SIZE] at *
    omega

theorem Copying.page {vma : VMA} {addr : Nat} {shown : Nat → Option (PageFlags × (Nat → UInt8))}
    (source : Source base parent src) (fresh : ∀ b, ¬ base.holds child.owner b)
    (aligned : PAGE_SIZE ∣ addr) (covered : pageOf addr ∈ areaPages parent.vmas)
    (user : UserPage img (pageOf addr)) (vacant : shown (pageOf addr) = none)
    (copying : Copying S img base child shown st)
    (run : forkPage p parent child vma st addr = .ok st') :
    Copying S img base child (Function.update shown (pageOf addr)
      ((frameAt base.mem src (pageOf addr)).map fun f =>
        (vma.flags.toPageFlags, bytesAt base.mem f))) st' := by
  obtain ⟨tab, step, own, exact, pages⟩ := copying
  obtain ⟨tree, views, backed⟩ := source.later fresh step
  have found : Machine.translate st.mem parent.pml4 addr =
      .ok (frameAt base.mem src (pageOf addr)) := by
    rw [tree.translate_ok user.lower, Nat.mod_eq_zero_of_dvd aligned, views]
    rfl
  have empty : view st.mem tab (pageOf addr) = none := by
    have here := pages _ user
    rw [vacant, Option.map_eq_none_iff] at here
    exact pageAt_eq_none.mp here
  obtain ⟨tab', step', own', exact', pages'⟩ := own.forkPage step.inv exact user empty
    found (fun f seen => (backed covered seen).1) run
  have new {f} (seen : frameAt base.mem src (pageOf addr) = some f) : bytesAt st.mem f =
      bytesAt base.mem f := (backed covered seen).2
  cases resident : frameAt base.mem src (pageOf addr) with
  | none =>
    rw [resident] at pages'
    have same : Function.update shown (pageOf addr) none = shown := by
      rw [← vacant, Function.update_eq_self]
    rw [Option.map_none, same]
    refine ⟨tab', step.trans step', own', exact', fun q hq => ?_⟩
    rw [pages' q hq]
    split
    · rename_i here
      rw [here, vacant]
      rfl
    · exact pages q hq
  | some f =>
    rw [resident] at pages'
    rw [Option.map_some]
    refine ⟨tab', step.trans step', own', exact', fun q hq => ?_⟩
    rw [pages' q hq]
    by_cases here : q = pageOf addr
    · rw [if_pos here, here, Function.update_self, Option.map_some, new resident]
    · rw [if_neg here, Function.update_of_ne here, pages q hq]

theorem Copying.area {vma : VMA} {shown : Nat → Option (PageFlags × (Nat → UInt8))}
    (source : Source base parent src) (fresh : ∀ b, ¬ base.holds child.owner b)
    (member : vma ∈ parent.vmas) (order : vma.start ≤ vma.stop)
    (range : UserRange img vma.start vma.stop)
    (vacant : ∀ q ∈ pagesIn vma.start vma.stop, shown q = none)
    (copying : Copying S img base child shown st)
    (run : forPages p (forkPage p parent child vma) st vma.start vma.stop = .ok st') :
    Copying S img base child (overlay vma vma.stop base.mem src shown) st' := by
  refine forPages_run (fun addr => Copying S img base child (overlay vma addr base.mem src shown))
    range.first range.last order (lt_of_le_of_lt range.below (by omega)) ?_ run ?_
  · intro addr st₁ st₂ aligned low high copying one
    obtain ⟨inside, -⟩ := pagesIn_step range.first aligned low high range.below
    have below := lt_of_lt_of_le high range.below
    rw [overlay_step aligned low below]
    refine copying.page source fresh aligned ⟨vma, member, inside⟩ (range.page _ inside) ?_ one
    rw [overlay, if_neg, vacant _ inside]
    rw [pageOf_eq below, Nat.div_mul_cancel aligned]
    omega
  · rwa [overlay_start]

theorem Copying.start {kernelPml4 id pml4 newPid : Nat} (inv : PoolInv S base)
    (fresh : ∀ b, ¬ base.holds (.space id) b)
    (new : base.newUser (poolPages p (.space id)) kernelPml4 newPid = .ok (some pml4, st)) :
    Copying S img base ⟨pml4, [], newPid, id⟩ (shadow [] base.mem src) st := by
  obtain ⟨step, made⟩ := newUser_owned img inv fresh new
  obtain ⟨own, exact, empty⟩ := made pml4 rfl
  refine ⟨_, step, own, exact, fun q _ => ?_⟩
  rw [pageAt_eq_none.mpr (empty q)]
  rfl

theorem next_area {vma : VMA} {rest vmas₀ : List VMA} (wfRest : Vmas.Wf (vma :: rest))
    (wf : Vmas.Wf vmas₀)
    (apart : ∀ {a f k f' k'}, Vmas.Has vmas₀ a f k → ¬ Vmas.Has (vma :: rest) a f' k') (m : Memory)
    (src : Tables) :
    ∃ vmas, Vmas.addVma vmas₀ vma = .ok vmas ∧ Vmas.Wf vmas ∧
      (∀ a f k, Vmas.Has vmas a f k ↔
        Vmas.Has vmas₀ a f k ∨ vma.start ≤ a ∧ a < vma.stop ∧ vma.flags = f ∧ vma.kind = k) ∧
      (∀ {a f k f' k'}, Vmas.Has vmas a f k → ¬ Vmas.Has rest a f' k') ∧
      (∀ q ∈ pagesIn vma.start vma.stop, shadow vmas₀ m src q = none) ∧
      overlay vma vma.stop m src (shadow vmas₀ m src) = shadow vmas m src := by
  have proper := wfRest.proper vma List.mem_cons_self
  have here {a} (ha : vma.start ≤ a ∧ a < vma.stop) : Vmas.Has (vma :: rest) a vma.flags vma.kind :=
    ⟨vma, List.mem_cons_self, ha.1, ha.2, rfl, rfl⟩
  have disjoint : ∀ u ∈ vmas₀, u.stop ≤ vma.start ∨ vma.stop ≤ u.start := by
    intro u hu
    by_contra overlap
    have := (wf.proper u hu).nonempty
    have := proper.nonempty
    refine apart (a := max u.start vma.start) ⟨u, hu, ?_, ?_, rfl, rfl⟩ (here ?_) <;> omega
  obtain ⟨vmas, added⟩ := Vmas.addVma_ok disjoint wf proper.nonempty
  obtain ⟨wf', -, has⟩ := Vmas.addVma_spec wf proper added
  refine ⟨vmas, added, wf', has, ?_, fun q hq => ?_, ?_⟩
  · rintro a f k f' k' old ⟨w, hw, wa⟩
    rcases (has _ _ _).mp old with older | ⟨low, high, -⟩
    · exact apart older ⟨w, List.mem_cons_of_mem _ hw, wa⟩
    · have := (List.pairwise_cons.mp wfRest.sorted).1 w hw
      omega
  · have none : Vmas.attr vmas₀ (q * PAGE_SIZE) = none := by
      rw [Vmas.attr_eq_none wf]
      exact fun u hu inside => apart ⟨u, hu, inside.1, inside.2, rfl, rfl⟩ (here hq)
    rw [shadow, none, Option.bind_none]
  · funext q
    unfold overlay
    split
    · rename_i inside
      have new : Vmas.attr vmas (q * PAGE_SIZE) = some (vma.flags, vma.kind) :=
        (Vmas.attr_eq_some wf').mpr ((has _ _ _).mpr (Or.inr ⟨inside.1, inside.2, rfl, rfl⟩))
      rw [shadow, new, Option.bind_some]
    · rename_i outside
      have old : Vmas.attr vmas (q * PAGE_SIZE) = Vmas.attr vmas₀ (q * PAGE_SIZE) :=
        Vmas.attr_congr wf wf' fun f k => by
          rw [has, or_iff_left fun inside => outside ⟨inside.1, inside.2.1⟩]
      rw [shadow, shadow, old]

/-- The areas of the child are those of the parent, up to the joining of neighbours. -/
theorem Copying.areas {rest : List VMA} {r : Option AddressSpace}
    (source : Source base parent src) (fresh : ∀ b, ¬ base.holds child.owner b)
    (member : ∀ v ∈ rest, v ∈ parent.vmas) (wfRest : Vmas.Wf rest) (user : UserAreas img rest)
    (wf : Vmas.Wf child.vmas) (apart : ∀ {a f k f' k'}, Vmas.Has child.vmas a f k →
      ¬ Vmas.Has rest a f' k')
    (copying : Copying S img base child (shadow child.vmas base.mem src) st)
    (run : forkAreas p parent rest child st = .ok (r, st')) :
    ∃ vmas, r = some { child with vmas } ∧ Vmas.Wf vmas ∧
      (∀ a f k, Vmas.Has vmas a f k ↔ Vmas.Has child.vmas a f k ∨ Vmas.Has rest a f k) ∧
      Copying S img base { child with vmas } (shadow vmas base.mem src) st' := by
  induction rest generalizing child st with
  | nil =>
    obtain ⟨rfl, rfl⟩ := by simpa [forkAreas] using run
    exact ⟨child.vmas, rfl, wf, fun a f k => by simp [Vmas.Has], copying⟩
  | cons v rest ih =>
    obtain ⟨vmas, added, wf', has, apart', vacant, grown⟩ := next_area wfRest wf apart base.mem src
    simp only [forkAreas, added] at run
    obtain ⟨st₁, pages, run⟩ := bind_eq_ok.mp run
    obtain ⟨order, range⟩ := user v List.mem_cons_self
    have copied : Copying S img base { child with vmas } (shadow vmas base.mem src) st₁ :=
      grown ▸ Copying.area source fresh (member v List.mem_cons_self) order range vacant copying pages
    have fresh' : ∀ b, ¬ base.holds ({ child with vmas } : AddressSpace).owner b := fresh
    obtain ⟨vmas', rfl, wf'', has', copying'⟩ := ih fresh'
      (fun w hw => member w (List.mem_cons_of_mem _ hw)) (wfRest.sublist (List.sublist_cons_self _ _))
      (fun w hw => user w (List.mem_cons_of_mem _ hw)) wf' apart' copied run
    refine ⟨vmas', rfl, wf'', fun a f k => ?_, copying'⟩
    rw [has', has, Vmas.has_cons, or_assoc]

/-! ## The address space of a child -/

/-- What `fork` makes of an address space: the same areas, and the same pages in frames of their own. -/
structure Forked (S img : Set Nat) (parent : AddressSpace) (src : Tables) (st : Machine Pool)
    (child : AddressSpace) (tab : Tables) (st' : Machine Pool) : Prop where
  step : Local S child.owner st st'
  own : Owned img st' child.owner child.pml4 tab
  exact : Exact img st' child.owner tab
  wf : Vmas.Wf child.vmas
  has : ∀ a f k, Vmas.Has child.vmas a f k ↔ Vmas.Has parent.vmas a f k
  pages : ∀ q, UserPage img q →
    (pageAt st'.mem tab q).map Page.content = shadow parent.vmas st.mem src q

theorem forkSpace_spec {image : ImageRange} (low : image.Low) {kernelPml4 id newPid : Nat}
    {r : Option AddressSpace} (inv : PoolInv S st) (source : Source st parent src)
    (fresh : ∀ b, ¬ st.holds (.space id) b) (wf : Vmas.Wf parent.vmas)
    (user : UserAreas image.pages parent.vmas)
    (run : forkSpace p image kernelPml4 id parent newPid st = .ok (r, st')) :
    Local S (.space id) st st' ∧ ∀ child, r = some child → child.id = id ∧ child.ownerPid = newPid ∧
      ∃ tab, Forked S image.pages parent src st child tab st' := by
  unfold forkSpace at run
  obtain ⟨⟨root, st₁⟩, new, run⟩ := bind_eq_ok.mp run
  cases root with
  | none =>
    obtain ⟨rfl, rfl⟩ := by simpa using run
    exact ⟨(newUser_owned image.pages inv fresh new).1, by simp⟩
  | some pml4 =>
    obtain ⟨⟨c, st₂⟩, areas, run⟩ := bind_eq_ok.mp run
    have start : Copying S image.pages st ⟨pml4, [], newPid, id⟩ (shadow [] st.mem src) st₁ :=
      .start inv fresh new
    have fresh' : ∀ b, ¬ st.holds (AddressSpace.owner ⟨pml4, [], newPid, id⟩) b := fresh
    obtain ⟨vmas, rfl, wf', has, tab, step₂, own₂, exact₂, pages₂⟩ := Copying.areas source fresh'
      (fun _ h => h) wf user Vmas.wf_nil (fun ⟨_, mem, _⟩ => absurd mem List.not_mem_nil) start areas
    obtain ⟨_, -, run⟩ := bind_eq_ok.mp run
    obtain ⟨_, -, run⟩ := bind_eq_ok.mp run
    obtain ⟨st₃, mapped, run⟩ := bind_eq_ok.mp run
    obtain ⟨rfl, rfl⟩ := by simpa using run
    obtain ⟨step₃, own₃, views₃, pages₃⟩ := own₂.copyKernelHalf step₂.inv parent.pml4
    obtain ⟨tab', imaged⟩ :=
      own₃.mapKernelImage low step₃.inv (exact₂.copyKernelHalf pages₃) mapped
    have has' : ∀ a f k, Vmas.Has vmas a f k ↔ Vmas.Has parent.vmas a f k := fun a f k => by
      rw [has, or_iff_right]
      rintro ⟨_, mem, -⟩
      exact absurd mem List.not_mem_nil
    have copied : shadow vmas st.mem src = shadow parent.vmas st.mem src := by
      funext q
      rw [shadow, shadow, Vmas.attr_congr wf wf' fun f k => has' _ f k]
    have step := step₂.trans (step₃.trans imaged.step)
    refine ⟨step, ?_⟩
    rintro _ ⟨⟩
    refine ⟨rfl, rfl, tab', step, imaged.own, imaged.exact, wf', has', fun q hq => ?_⟩
    rw [imaged.pages q hq, pages₃ q hq, pages₂ q hq, copied]

end Ferrum
