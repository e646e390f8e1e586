import Ferrum.Kernel.Exec
import Ferrum.Kernel.Files
import Ferrum.Vma.Areas

/-!
# The files of procfs

The text of `/proc/self/maps` says everything about the areas of a process: it can be read back. The text
is made when the file is opened, and a descriptor delivers that text whatever the process maps later.
-/
namespace Ferrum

namespace Procfs

/-! ## Numbers in hexadecimal -/

/-- A lower-case digit. -/
def hexChar (d : Nat) : UInt8 := if d < 10 then .ofNat (0x30 + d) else .ofNat (0x61 + (d - 10))

/-- The last `width` digits of a number; `{:016x}` is `hex 16`. -/
def hex : Nat → Nat → List UInt8
  | 0, _ => []
  | width + 1, n => hex width (n / 16) ++ [hexChar (n % 16)]

/-- The number that a string of digits stands for. -/
def readHex (s : List UInt8) : Option Nat :=
  s.foldlM (fun val b => (Newc.hexDigit b).map fun digit => val * 16 + digit) 0

theorem hexDigit_hexChar : ∀ d < 16, Newc.hexDigit (hexChar d) = some d := by decide

theorem length_hex (width n : Nat) : (hex width n).length = width := by
  induction width generalizing n with
  | zero => rfl
  | succ width ih => rw [hex, List.length_append, ih, List.length_singleton]

theorem readHex_hex (width : Nat) {n : Nat} (small : n < 16 ^ width) : readHex (hex width n) = some n := by
  induction width generalizing n with
  | zero =>
    obtain rfl : n = 0 := by simpa using small
    rfl
  | succ width ih =>
    have high : readHex (hex width (n / 16)) = some (n / 16) := ih (by rw [pow_succ] at small; omega)
    rw [readHex] at high
    rw [readHex, hex, List.foldlM_append, high]
    simp only [Option.bind_eq_bind, Option.bind_some, List.foldlM_cons, List.foldlM_nil,
      hexDigit_hexChar _ (Nat.mod_lt n (by omega)), Option.map_some]
    congr 1
    omega

theorem newline_notMem_hex (width n : Nat) : 0x0a ∉ hex width n := by
  have plain : ∀ d < 16, hexChar d ≠ 0x0a := by decide
  induction width generalizing n with
  | zero => simp [hex]
  | succ width ih =>
    rw [hex, List.mem_append, List.mem_singleton]
    rintro (high | last)
    · exact ih _ high
    · exact plain _ (Nat.mod_lt n (by omega)) last.symm

/-! ## `/proc/self/maps` -/

def label : VMAKind → List UInt8
  | .stack => ascii "[stack]"
  | .heap => ascii "[heap]"
  | .anonymous => []

def permissions (f : VMAFlags) : List UInt8 :=
  [if f.read then 0x72 else 0x2d, if f.write then 0x77 else 0x2d, if f.exec then 0x78 else 0x2d]

/-- What the source prints between the permissions and the label. -/
def filler : List UInt8 := ascii "p 00000000 00:00 0          "

def formatLine (v : VMA) : List UInt8 :=
  hex 16 v.start ++ ascii "-" ++ hex 16 v.stop ++ ascii " " ++ permissions v.flags ++ filler ++
    label v.kind

def formatMaps (vmas : List VMA) : List UInt8 :=
  (vmas.mergeSort fun v w => v.start ≤ w.start).flatMap fun v => formatLine v ++ [0x0a]

/-- The area that a line is about. -/
def readLine (line : List UInt8) : Option VMA := do
  let start ← readHex (line.take 16)
  let stop ← readHex ((line.drop 17).take 16)
  let flags : VMAFlags := ⟨line.getD 34 0 = 0x72, line.getD 35 0 = 0x77, line.getD 36 0 = 0x78⟩
  let kind ← [VMAKind.anonymous, .stack, .heap].find? fun kind => label kind = line.drop 65
  return ⟨start, stop, flags, kind⟩

/-- The areas of a text; `line` is what has been seen of the current line. -/
def readMaps (line : List UInt8) : List UInt8 → Option (List VMA)
  | [] => if line = [] then some [] else none
  | b :: text =>
    if b = 0x0a then do
      let v ← readLine line
      let vmas ← readMaps [] text
      return v :: vmas
    else readMaps (line ++ [b]) text

theorem readMaps_line (line rest : List UInt8) {text : List UInt8} (plain : 0x0a ∉ text) :
    readMaps line (text ++ 0x0a :: rest) = (do
      let v ← readLine (line ++ text)
      let vmas ← readMaps [] rest
      return v :: vmas) := by
  induction text generalizing line with
  | nil => simp [readMaps]
  | cons b text ih =>
    obtain ⟨first, plain⟩ := not_or.mp (List.mem_cons.not.mp plain)
    rw [List.cons_append, readMaps, if_neg (Ne.symm first), ih _ plain, List.append_assoc,
      List.singleton_append]

theorem newline_notMem_formatLine (v : VMA) : 0x0a ∉ formatLine v := by
  have perms : ∀ f : VMAFlags, 0x0a ∉ permissions f := by
    rintro ⟨r, w, x⟩
    cases r <;> cases w <;> cases x <;> decide
  have kinds : ∀ kind, 0x0a ∉ label kind := by
    intro kind
    cases kind <;> decide
  simp only [formatLine, List.mem_append, newline_notMem_hex, perms, kinds, or_false, false_or]
  decide

theorem readLine_fields {a b : List UInt8} {start stop : Nat} (sizeA : a.length = 16)
    (sizeB : b.length = 16) (low : readHex a = some start) (high : readHex b = some stop)
    (flags : VMAFlags) (kind : VMAKind) :
    readLine (a ++ 0x2d :: (b ++ 0x20 :: (permissions flags ++ (filler ++ label kind)))) =
      some ⟨start, stop, flags, kind⟩ := by
  generalize whole : a ++ 0x2d :: (b ++ 0x20 :: (permissions flags ++ (filler ++ label kind))) = line
  have first : line.take 16 = a := by rw [← whole, List.take_left' sizeA]
  have after : line.drop 17 = b ++ 0x20 :: (permissions flags ++ (filler ++ label kind)) := by
    rw [← whole, List.drop_append, sizeA, List.drop_eq_nil_of_le (by omega)]
    rfl
  have second : (line.drop 17).take 16 = b := by rw [after, List.take_left' sizeB]
  have perms : line.drop 34 = permissions flags ++ (filler ++ label kind) := by
    rw [show 34 = 17 + 17 from rfl, ← List.drop_drop, after, List.drop_append, sizeB,
      List.drop_eq_nil_of_le (by omega)]
    rfl
  have bit (k : Nat) : line.getD (34 + k) 0 =
      (permissions flags ++ (filler ++ label kind)).getD k 0 := by
    rw [← perms]
    simp [List.getD_eq_getElem?_getD, List.getElem?_drop]
  have rest : line.drop 65 = label kind := by
    rw [show 65 = 34 + 31 from rfl, ← List.drop_drop, perms]
    rfl
  have bit₀ : line.getD 34 0 = _ := bit 0
  have bit₁ : line.getD 35 0 = _ := bit 1
  have bit₂ : line.getD 36 0 = _ := bit 2
  simp only [readLine, first, second, low, high, rest, bit₀, bit₁, bit₂]
  obtain ⟨r, w, x⟩ := flags
  cases kind <;> cases r <;> cases w <;> cases x <;> rfl

theorem readLine_formatLine {v : VMA} (start : v.start < 2 ^ 64) (stop : v.stop < 2 ^ 64) :
    readLine (formatLine v) = some v := by
  have shape (a b flags rest kind : List UInt8) :
      a ++ ascii "-" ++ b ++ ascii " " ++ flags ++ rest ++ kind =
        a ++ 0x2d :: (b ++ 0x20 :: (flags ++ (rest ++ kind))) := by simp [ascii]
  have low : readHex (hex 16 v.start) = some v.start := readHex_hex 16 (by omega)
  have high : readHex (hex 16 v.stop) = some v.stop := readHex_hex 16 (by omega)
  rw [formatLine, shape]
  exact readLine_fields (length_hex 16 _) (length_hex 16 _) low high v.flags v.kind

theorem readMaps_formatMaps {vmas : List VMA} (bounded : ∀ v ∈ vmas, v.start < 2 ^ 64 ∧ v.stop < 2 ^ 64) :
    readMaps [] (formatMaps vmas) = some (vmas.mergeSort fun v w => v.start ≤ w.start) := by
  have lines : ∀ l : List VMA, (∀ v ∈ l, v.start < 2 ^ 64 ∧ v.stop < 2 ^ 64) →
      readMaps [] (l.flatMap fun v => formatLine v ++ [0x0a]) = some l := by
    intro l bounded
    induction l with
    | nil => rfl
    | cons v l ih =>
      obtain ⟨start, stop⟩ := bounded v List.mem_cons_self
      rw [List.flatMap_cons, List.append_assoc, List.singleton_append,
        readMaps_line [] _ (newline_notMem_formatLine v), List.nil_append, readLine_formatLine start stop,
        ih fun w mem => bounded w (List.mem_cons_of_mem v mem)]
      rfl
  exact lines _ fun v mem => bounded v (List.mem_mergeSort.mp mem)

theorem mergeSort_areas {vmas : List VMA} (wf : Vmas.Wf vmas) :
    (vmas.mergeSort fun v w => v.start ≤ w.start) = vmas := by
  refine List.mergeSort_of_pairwise (wf.sorted.imp_of_mem fun {v w} mem _ before => ?_)
  have nonempty := (wf.proper v mem).nonempty
  simp only [decide_eq_true_eq]
  omega

/-! ## `/proc/self/status` -/

def stateText : ProcessState → String
  | .running => "R (running)"
  | .ready => "R (running)"
  | .blocked => "S (sleeping)"
  | .dead => "Z (zombie)"
  | .waiting => "W (waiting)"

def formatStatus (a : Process Image) : List UInt8 :=
  let heapKb := (a.image.brkCurrent - a.image.brkStart) / 1024
  let mappedKb := (a.image.space.vmas.map fun v => (v.stop - v.start) / 1024).sum
  ascii s!"Name:\tprocess\nPid:\t{a.pid}\nPPid:\t{a.parentPid}\nState:\t{stateText a.state}\nThreads:\t1\nVmSize:\t{mappedKb} kB\nVmHeap:\t{heapKb} kB\n"

/-! ## Opening and reading -/

/-- The text that `open` makes for a path of procfs. -/
def content (s : System Image) (path : Path) : List UInt8 :=
  match s.sched.current with
  | none => []
  | some a => if path = ascii "/proc/self/maps" then formatMaps a.image.space.vmas else formatStatus a

variable {p : Profile} {d d' : Files Image} {cwd raw : Path} {flags fd : Nat} {a : Process Image}

/-- Who opens `/proc/self/maps` gets a descriptor that delivers the areas of that moment. -/
theorem maps_snapshot (running : d.sys.sched.current = some a) (wf : Vmas.Wf a.image.space.vmas)
    (bounded : ∀ v ∈ a.image.space.vmas, v.stop < 2 ^ 64)
    (here : resolvePath cwd raw = ascii "/proc/self/maps") (plain : flags &&& Ramfs.O_DIRECTORY = 0)
    (opens : Files.Step content p d (.open cwd raw flags) (.ret fd) d') :
    ∃ g n text, d'.sys.entry fd = some (some g) ∧ readMaps [] text = some a.image.space.vmas ∧
      System.Reads d'.sys.store g n ⟨text, true⟩ 0 ∧ ∀ events d'',
        Trace (Files.Occurs content p) d' events d'' →
        (∀ e ∈ events, ¬ e.before.Disturbs g n e.action) →
        events.flatMap (Files.Event.taken · g) <+: text := by
  have located : d.locate content (ascii "/proc/self/maps") flags =
      (.ok (.file d.nodes.length true false false),
        d.setNodes (d.nodes ++ [⟨formatMaps a.image.space.vmas, true⟩])) := by
    have root : ascii "/proc/self/maps" ≠ ascii "/" := by decide
    have special : Files.specialKind (ascii "/proc/self/maps") = none := by decide
    unfold Files.locate
    rw [if_neg (by simp [plain, root]), special]
    simp only [true_or, if_true, content, running]
  have out := Except.ok.inj opens.2
  rw [here] at out
  obtain ⟨g, entry, file, nodes⟩ := Files.open_located located out
  have reads : System.Reads d'.sys.store g d.nodes.length ⟨formatMaps a.image.space.vmas, true⟩ 0 := by
    refine ⟨congrArg OpenFile.kind file, congrArg OpenFile.readable file, congrArg OpenFile.node file, ?_,
      congrArg OpenFile.offset file⟩
    rw [show d'.sys.store.nodes = _ from nodes]
    exact List.getElem?_concat_length
  refine ⟨g, d.nodes.length, _, entry, ?_, reads, fun events d'' trace calm => ?_⟩
  · rw [readMaps_formatMaps, mergeSort_areas wf]
    intro v mem
    have nonempty := (wf.proper v mem).nonempty
    have stop := bounded v mem
    exact ⟨by omega, stop⟩
  · exact (Files.reads_run reads trace calm).2

/-- The resident process looks at itself. -/
theorem resident_maps_snapshot : ∃ (d d' : Files Image) (g n : Nat) (text : List UInt8),
    Files.Step content .dev d (.open (ascii "/") (ascii "proc/self/maps") 0) (.ret 3) d' ∧
    readMaps [] text = some residentSpace.vmas ∧ System.Reads d'.sys.store g n ⟨text, true⟩ 0 := by
  have opens : ∃ d' : Files Image, Files.Step content .dev
      ⟨[], fun _ => .regular, (Kernel.residentKernel ⟨fun _ => 0, ⟨.new, [], []⟩⟩).sys⟩
      (.open (ascii "/") (ascii "proc/self/maps") 0) (.ret 3) d' := ⟨_, rfl, rfl⟩
  obtain ⟨d', opens⟩ := opens
  obtain ⟨g, n, text, -, areas, reads, -⟩ := maps_snapshot rfl residentSpace_wf
    (by simp [residentSpace]) (by decide) rfl opens
  exact ⟨_, d', g, n, text, opens, areas, reads⟩

end Procfs
end Ferrum
