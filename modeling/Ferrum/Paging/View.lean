import Ferrum.Paging.Tree

/-!
# What a tree of tables maps

The view of a tree sends a page number to the frame and flags of its leaf entry. Looking an address
up with `translate` reads the view; linking tables and changing their flags leaves it alone.
-/
namespace Ferrum

/-- The frame and flags of a present entry. -/
def Entry.decode (e : Nat) : Option (Nat × PageFlags) :=
  if isPresent e then some (physAddr e, flags e) else none

@[simp] theorem Entry.decode_zero : decode 0 = none := rfl

theorem Entry.decode_newPage {p : Nat} {f : PageFlags} (h : PageAddr p) (hf : f.present = true) :
    decode (newPage p f) = some (p, f) := by
  simp [decode, h, hf]

/-- Page numbers take 36 bits of an address. -/
def pageOf (v : Nat) : Nat := v / PAGE_SIZE % 2 ^ 36

/-- The indices of the three tables that lead to the leaf entry of a page. -/
def pagePath (q : Nat) : List Nat := [q / 2 ^ 27 % 512, q / 2 ^ 18 % 512, q / 2 ^ 9 % 512]

theorem index_lt (x : Nat) : x % 512 < 512 := Nat.mod_lt _ (by omega)

/-- The page lies in the half of the address space that is not the kernel's. -/
def LowerPage (q : Nat) : Prop := q < 2 ^ 35

theorem LowerPage.top {q : Nat} (h : LowerPage q) : q / 2 ^ 27 % 512 < 256 := by
  simp only [LowerPage] at h
  omega

theorem LowerPage.lt {q : Nat} (h : LowerPage q) : q < 2 ^ 36 := by
  simp only [LowerPage] at h
  omega

theorem pageOf_lower {v : Nat} (h : v < 2 ^ 47) : LowerPage (pageOf v) := by
  simp only [LowerPage, pageOf, PAGE_SIZE]
  omega

theorem pageOf_eq {v : Nat} (h : v < 2 ^ 47) : pageOf v = v / PAGE_SIZE := by
  simp only [pageOf, PAGE_SIZE]
  omega

theorem pagePath_inj {q r : Nat} (hq : q < 2 ^ 36) (hr : r < 2 ^ 36)
    (path : pagePath q = pagePath r) (index : q % 512 = r % 512) : q = r := by
  simp only [pagePath, List.cons.injEq] at path
  omega

theorem fromU64_eq (v : Nat) : VirtAddrParts.fromU64 v =
    ⟨pageOf v / 2 ^ 27 % 512, pageOf v / 2 ^ 18 % 512, pageOf v / 2 ^ 9 % 512, pageOf v % 512,
      v % PAGE_SIZE⟩ := by
  have index (x : Nat) : x &&& 0x1ff = x % 2 ^ 9 := Nat.and_two_pow_sub_one_eq_mod x 9
  have offset : v &&& 0xfff = v % 2 ^ 12 := Nat.and_two_pow_sub_one_eq_mod v 12
  simp only [VirtAddrParts.fromU64, index, offset, Nat.shiftRight_eq_div_pow, pageOf, PAGE_SIZE,
    VirtAddrParts.mk.injEq]
  omega

def view (m : Memory) (tab : Tables) (q : Nat) : Option (Nat × PageFlags) :=
  (tab (pagePath q)).bind fun t => Entry.decode (readEntry m t (q % 512))

namespace Tree

variable {m m' : Memory} {root t c i q v : Nat} {tab : Tables} {π : List Nat}

theorem view_of_some (h : tab (pagePath q) = some t) :
    view m tab q = Entry.decode (readEntry m t (q % 512)) := by
  simp [view, h]

theorem view_of_none (h : tab (pagePath q) = none) : view m tab q = none := by
  simp [view, h]

theorem view_congr (same : ∀ π t, tab π = some t → Set.EqOn m' m (pageBytes t)) (q : Nat) :
    view m' tab q = view m tab q := by
  cases h : tab (pagePath q) with
  | none => rw [view_of_none h, view_of_none h]
  | some t =>
    rw [view_of_some h, view_of_some h,
      readEntry_congr (Nat.mod_lt _ (by omega)) (same _ t h)]

theorem view_pageAddr (tree : Tree m root tab) {p : Nat} {f : PageFlags}
    (h : view m tab q = some (p, f)) : PageAddr p ∧ f.present = true := by
  cases ht : tab (pagePath q) with
  | none => simp [view_of_none ht] at h
  | some t =>
    rw [view_of_some ht] at h
    rcases tree.leaf ht rfl (Nat.mod_lt q (by omega)) with absent | ⟨p', f', addr, present, word⟩
    · simp [Entry.decode, absent] at h
    · rw [word, Entry.decode_newPage addr present] at h
      obtain ⟨rfl, rfl⟩ := by simpa using h
      exact ⟨addr, present⟩

theorem view_inner (tree : Tree m root tab) (h : tab π = some t) (shallow : π.length < 3)
    (hi : i < 512) (e q : Nat) : view (m.write64 (t + 8 * i) e) tab q = view m tab q := by
  cases hs : tab (pagePath q) with
  | none => rw [view_of_none hs, view_of_none hs]
  | some s =>
    have deep : ¬ (s = t ∧ q % 512 = i) := by
      rintro ⟨rfl, -⟩
      rw [tree.inj h hs] at shallow
      simp [pagePath] at shallow
    rw [view_of_some hs, view_of_some hs, readEntry_write64 (tree.frame h).aligned
      (tree.frame hs).aligned hi (Nat.mod_lt _ (by omega)) deep]

theorem view_grow (vacant : tab π = none) (empty : ∀ j < 512, readEntry m c j = 0) (q : Nat) :
    view m (Function.update tab π (some c)) q = view m tab q := by
  by_cases new : pagePath q = π
  · have hc : Function.update tab π (some c) (pagePath q) = some c := by simp [new]
    rw [view_of_some hc, empty _ (Nat.mod_lt _ (by omega)), view_of_none (new ▸ vacant)]
    rfl
  · simp only [view, Function.update_of_ne new]

theorem view_leaf (tree : Tree m root tab) (h : tab (pagePath q) = some t) (hq : q < 2 ^ 36)
    {e : Nat} (he : e < 2 ^ 64) {r : Nat} (hr : r < 2 ^ 36) :
    view (m.write64 (t + 8 * (q % 512)) e) tab r =
      Function.update (view m tab) q (Entry.decode e) r := by
  by_cases same : r = q
  · subst same
    rw [Function.update_self, view_of_some h, readEntry_write64_same he]
  · rw [Function.update_of_ne same]
    cases hs : tab (pagePath r) with
    | none => rw [view_of_none hs, view_of_none hs]
    | some s =>
      have other : ¬ (s = t ∧ r % 512 = q % 512) := by
        rintro ⟨rfl, index⟩
        exact same (pagePath_inj hr hq (tree.inj hs h) index)
      rw [view_of_some hs, view_of_some hs, readEntry_write64 (tree.frame h).aligned
        (tree.frame hs).aligned (Nat.mod_lt _ (by omega)) (Nat.mod_lt _ (by omega)) other]

/-! ## Looking up -/

theorem walkTables_ok (tree : Tree m root tab) (path : List Nat) (h : tab π = some t)
    (depth : (π ++ path).length ≤ 3) (slots : ∀ j ∈ path, j < 512)
    (top : π = [] → ∀ j ∈ path.head?, j < 256) :
    Machine.walkTables m path t = .ok (tab (π ++ path)) := by
  induction path generalizing π t with
  | nil => simp [Machine.walkTables, h]
  | cons j path ih =>
    have slot : Slot π j := ⟨slots j (by simp), fun hπ => top hπ j (by simp)⟩
    simp only [List.length_append, List.length_cons] at depth
    have further : π ++ j :: path = π ++ [j] ++ path := by simp
    simp only [Machine.walkTables, physToVirt_ok (tree.frame h).window, ok_bind]
    cases hc : tab (π ++ [j]) with
    | none =>
      have beyond : tab (π ++ j :: path) = none := by
        by_contra some
        obtain ⟨d, hd⟩ := Option.ne_none_iff_exists'.mp some
        obtain ⟨s, hs⟩ := tree.ancestor (further ▸ hd) (List.prefix_append _ _)
        rw [hc] at hs
        cases hs
      simp [tree.absent h (by omega) slot hc, beyond]
    | some c =>
      obtain ⟨f, link, word⟩ := tree.link h hc
      have addr := (tree.frame hc).pageAddr
      simp only [word, Entry.isPresent_newPage addr, link.present, if_true,
        Entry.physAddr_newPage addr]
      rw [further]
      exact ih hc (by simp only [List.length_append, List.length_singleton]; omega)
        (fun k hk => slots k (by simp [hk])) (by simp)

theorem leafEntry (tree : Tree m root tab) (lower : LowerPage (pageOf v)) {f : Nat}
    {flags : PageFlags} (seen : view m tab (pageOf v) = some (f, flags)) :
    ∃ pt, Machine.walkTables m [(VirtAddrParts.fromU64 v).pml4, (VirtAddrParts.fromU64 v).pdpt,
        (VirtAddrParts.fromU64 v).pd] root = .ok (some pt) ∧
      Entry.flags (readEntry m pt (VirtAddrParts.fromU64 v).pt) = flags := by
  simp only [fromU64_eq]
  rw [tree.walkTables_ok _ tree.root (by simp) (by simp [index_lt]) (by simpa using lower.top)]
  cases table : tab (pagePath (pageOf v)) with
  | none => simp [view_of_none table] at seen
  | some pt =>
    rw [view_of_some table, Entry.decode] at seen
    refine ⟨pt, congrArg Except.ok table, ?_⟩
    split at seen
    · exact (Prod.mk.inj (Option.some.inj seen)).2
    · cases seen

theorem translate_ok (tree : Tree m root tab) (hv : LowerPage (pageOf v)) :
    Machine.translate m root v =
      .ok ((view m tab (pageOf v)).map fun e => e.1 + v % PAGE_SIZE) := by
  simp only [Machine.translate, fromU64_eq]
  rw [tree.walkTables_ok _ tree.root (by simp) (by simp [index_lt]) (by simpa using hv.top)]
  simp only [List.nil_append, ok_bind]
  have path : pagePath (pageOf v) =
      [pageOf v / 2 ^ 27 % 512, pageOf v / 2 ^ 18 % 512] ++ [pageOf v / 2 ^ 9 % 512] := rfl
  cases hpd : tab [pageOf v / 2 ^ 27 % 512, pageOf v / 2 ^ 18 % 512] with
  | none =>
    have beyond : tab (pagePath (pageOf v)) = none := by
      by_contra some
      obtain ⟨d, hd⟩ := Option.ne_none_iff_exists'.mp some
      obtain ⟨s, hs⟩ := tree.ancestor hd (path ▸ List.prefix_append _ _)
      rw [hpd] at hs
      cases hs
    simp [view_of_none beyond]
  | some pd =>
    simp only [physToVirt_ok (tree.frame hpd).window, ok_bind]
    cases hpt : tab (pagePath (pageOf v)) with
    | none =>
      have absent := tree.absent hpd (by simp) ⟨index_lt _, by simp⟩ (path ▸ hpt)
      simp only [absent, Bool.not_false, if_true, view_of_none hpt, pure_eq_ok, Option.map_none]
    | some pt =>
      obtain ⟨f, link, word⟩ := tree.link hpd (path ▸ hpt)
      have addr := (tree.frame hpt).pageAddr
      simp only [word, Entry.isPresent_newPage addr, link.present, Entry.flags_newPage addr,
        link.huge, Entry.physAddr_newPage addr, physToVirt_ok (tree.frame hpt).window, ok_bind,
        view_of_some hpt, Entry.decode]
      cases Entry.isPresent (readEntry m pt (pageOf v % 512)) <;> simp

end Tree
end Ferrum
