import Ferrum.Kernel.InitialStack

/-!
# The arguments of `execve`

The caller's strings are read byte by byte, each byte becomes a character, and the characters are encoded
again when the strings are copied to the new stack. What arrives is what the caller passed if there are
at most 32 strings of at most 255 bytes, all of them ASCII. Otherwise strings are dropped or changed, and
the call succeeds all the same.
-/
namespace Ferrum

namespace Exec

/-- `b as char` for each byte. -/
def chars (bytes : List UInt8) : List Char := bytes.map fun b => Char.ofNat b.toNat

def readUserCstr (m : Memory) (ptr max : Nat) : Option (List Char) :=
  if ptr = 0 then none else (m.cstr ptr max).map chars

/-- The loop over the pointers of an array. -/
def readCstrs (m : Memory) : Nat → Nat → List (List Char)
  | _, 0 => []
  | ptr, n + 1 =>
    if m.read64 ptr = 0 then []
    else match readUserCstr m (m.read64 ptr) 256 with
    | some s => s :: readCstrs m (ptr + 8) n
    | none => []

def readUserCstrArray (m : Memory) (ptr maxItems : Nat) : List (List Char) :=
  if ptr = 0 then [] else readCstrs m ptr maxItems

/-- What `syscall_execve` does with the arguments: they are read from the memory of the caller before it
is cleared, and copied to the new stack when the program is loaded. -/
def execveStack (p : Profile) (m : Memory) (argvPtr envpPtr pml4 ustackTop : Nat) (elf : ElfInfo)
    (tsc1 tsc2 : UInt64) (st : Machine Pool) : Except Stop ((Nat × List UInt8) × Machine Pool) :=
  let argv := readUserCstrArray m argvPtr 32
  let envp := readUserCstrArray m envpPtr 64
  let envp := if envp.isEmpty then ["PATH=/".toList] else envp
  buildArgvEnvpStack p ustackTop pml4 argv envp elf tsc1 tsc2 st

/-! ## Bytes to characters and back -/

variable {m : Memory} {ptr n : Nat} {s : List UInt8} {args : List (List UInt8)}

theorem encode_byte : ∀ n < 256, String.utf8EncodeChar (Char.ofNat n) =
    if n < 128 then [UInt8.ofNat n] else [UInt8.ofNat (192 + n / 64), UInt8.ofNat (128 + n % 64)] := by
  decide +kernel

theorem zero_notMem_encode : ∀ n < 256, n ≠ 0 → 0 ∉ String.utf8EncodeChar (Char.ofNat n) := by
  decide +kernel

theorem asBytes_chars_cons (b : UInt8) (s : List UInt8) : asBytes (chars (b :: s)) =
    String.utf8EncodeChar (Char.ofNat b.toNat) ++ asBytes (chars s) := rfl

theorem length_le_asBytes (s : List UInt8) : s.length ≤ (asBytes (chars s)).length := by
  induction s with
  | nil => simp
  | cons b s ih =>
    rw [asBytes_chars_cons, encode_byte b.toNat b.toNat_lt, List.length_append, List.length_cons]
    split
    · simp only [List.length_singleton]
      omega
    · simp only [List.length_cons, List.length_nil]
      omega

theorem asBytes_chars_eq_iff : asBytes (chars s) = s ↔ ∀ b ∈ s, b.toNat < 128 := by
  induction s with
  | nil => simp [asBytes, chars]
  | cons b s ih =>
    have rest := length_le_asBytes s
    rw [asBytes_chars_cons, encode_byte b.toNat b.toNat_lt, List.forall_mem_cons]
    by_cases low : b.toNat < 128
    · rw [if_pos low, UInt8.ofNat_toNat, List.singleton_append, List.cons.injEq, ih]
      simp [low]
    · rw [if_neg low]
      refine iff_of_false (fun same => ?_) fun h => low h.1
      have length := congrArg List.length same
      simp only [List.length_append, List.length_cons, List.length_nil] at length
      omega

theorem zero_notMem_asBytes (clean : 0 ∉ s) : 0 ∉ asBytes (chars s) := by
  induction s with
  | nil => simp [asBytes, chars]
  | cons b s ih =>
    rw [List.mem_cons, not_or] at clean
    have nonzero : b.toNat ≠ 0 := fun zero => clean.1 (UInt8.toNat_inj.mp zero.symm)
    rw [asBytes_chars_cons, List.mem_append, not_or]
    exact ⟨zero_notMem_encode _ b.toNat_lt nonzero, ih clean.2⟩

/-! ## What is read -/

/-- The caller passes these strings: an array of pointers that ends in a null pointer, each of the others
to a string that ends in a null byte. -/
structure Supplies (m : Memory) (ptr : Nat) (args : List (List UInt8)) : Prop where
  array : ptr ≠ 0
  strings : ∃ ptrs : List Nat, m.HoldsWords ptr (ptrs ++ [0]) ∧
    List.Forall₂ (fun s q => q ≠ 0 ∧ m.Holds q (s ++ [0]) ∧ 0 ∉ s) args ptrs

theorem holds_unique {q : Nat} {t : List UInt8} (held : m.Holds q (s ++ [0])) (clean : 0 ∉ s)
    (held' : m.Holds q (t ++ [0])) (clean' : 0 ∉ t) : s = t := by
  have first := Memory.cstr_eq_some (n := s.length + t.length + 1).mpr ⟨held, clean, by omega⟩
  have second := Memory.cstr_eq_some (n := s.length + t.length + 1).mpr ⟨held', clean', by omega⟩
  exact Option.some.inj (first.symm.trans second)

theorem readUserCstr_eq {q : Nat} (there : q ≠ 0) (held : m.Holds q (s ++ [0])) (clean : 0 ∉ s) :
    readUserCstr m q 256 = if s.length ≤ 255 then some (chars s) else none := by
  rw [readUserCstr, if_neg there]
  by_cases short : s.length ≤ 255
  · rw [if_pos short, Memory.cstr_eq_some.mpr ⟨held, clean, by omega⟩]
    rfl
  · rw [if_neg short, Option.map_eq_none_iff]
    by_contra found
    obtain ⟨t, found⟩ := Option.ne_none_iff_exists'.mp found
    obtain ⟨held', clean', short'⟩ := Memory.cstr_eq_some.mp found
    rw [holds_unique held clean held' clean'] at short
    omega

/-- The strings that are read: as many as the limit allows, up to the first that is too long. -/
theorem readCstrs_eq {ptrs : List Nat} (array : m.HoldsWords ptr (ptrs ++ [0]))
    (strings : List.Forall₂ (fun s q => q ≠ 0 ∧ m.Holds q (s ++ [0]) ∧ 0 ∉ s) args ptrs) :
    readCstrs m ptr n = ((args.take n).takeWhile (·.length ≤ 255)).map chars := by
  induction strings generalizing ptr n with
  | nil =>
    have last : m.read64 ptr = 0 := (Memory.holdsWords_cons.mp array).1
    cases n with
    | zero => rfl
    | succ n => simp [readCstrs, last]
  | @cons s q args ptrs head tail ih =>
    obtain ⟨there, held, clean⟩ := head
    obtain ⟨word, array⟩ := Memory.holdsWords_cons.mp array
    cases n with
    | zero => rfl
    | succ n =>
      rw [readCstrs, word, if_neg there, readUserCstr_eq there held clean, List.take_succ_cons,
        List.takeWhile_cons]
      by_cases short : s.length ≤ 255
      · simp only [short, if_true, decide_true, List.map_cons, ih array]
      · simp only [short, if_false, decide_false, Bool.false_eq_true, List.map_nil]

theorem readCstrs_bounded (m : Memory) (ptr n : Nat) :
    (readCstrs m ptr n).length ≤ n ∧ ∀ s ∈ readCstrs m ptr n, s.length ≤ 255 := by
  induction n generalizing ptr with
  | zero => exact ⟨Nat.le_refl _, nofun⟩
  | succ n ih =>
    rw [readCstrs]
    split
    · exact ⟨Nat.zero_le _, nofun⟩
    · split
      next s found =>
        obtain ⟨few, short⟩ := ih (ptr + 8)
        refine ⟨Nat.succ_le_succ few, List.forall_mem_cons.mpr ⟨?_, short⟩⟩
        rw [readUserCstr] at found
        split at found
        · cases found
        · obtain ⟨t, read, rfl⟩ := Option.map_eq_some_iff.mp found
          have length := (Memory.cstr_eq_some.mp read).2.2
          rw [chars, List.length_map]
          omega
      next => exact ⟨Nat.zero_le _, nofun⟩

theorem readUserCstrArray_bounded (m : Memory) (ptr n : Nat) :
    (readUserCstrArray m ptr n).length ≤ n ∧ ∀ s ∈ readUserCstrArray m ptr n, s.length ≤ 255 := by
  rw [readUserCstrArray]
  split
  · exact ⟨Nat.zero_le _, nofun⟩
  · exact readCstrs_bounded m ptr n

/-! ## What arrives -/

/-- A program that reads its stack from `rsp` finds these arguments. -/
structure Delivers (vm : Memory) (rsp : Nat) (args : List (List UInt8)) : Prop where
  argc : vm.read64 rsp = args.length
  argv : ∀ i, (h : i < args.length) → vm.Holds (vm.read64 (rsp + 8 * (i + 1))) (args[i] ++ [0])

theorem InitialStack.delivers {vm : Memory} {top rsp atRandomPtr : Nat} {argv envp : List (List UInt8)}
    {elf : ElfInfo} {random : List UInt8} {argvPtrs envpPtrs : List Nat}
    (stack : InitialStack vm top rsp argv envp elf random argvPtrs envpPtrs atRandomPtr) :
    Delivers vm rsp argv := by
  obtain ⟨length, each⟩ := List.forall₂_iff_get.mp stack.arguments
  refine ⟨stack.words 0 (Nat.succ_pos _), fun i hi => ?_⟩
  have held := each i hi (length ▸ hi)
  have there : i + 1 < (vectors argv.length argvPtrs envpPtrs (auxv elf atRandomPtr)).length := by
    simp only [vectors, List.length_cons, List.length_append]
    omega
  have pointer := stack.words (i + 1) there
  simp only [vectors, List.getElem_cons_succ, List.getElem_append_left (length ▸ hi)] at pointer
  rw [pointer]
  exact held

theorem Delivers.unique {vm : Memory} {rsp : Nat} {args args' : List (List UInt8)}
    (h : Delivers vm rsp args) (h' : Delivers vm rsp args') (clean : ∀ s ∈ args, 0 ∉ s)
    (clean' : ∀ s ∈ args', 0 ∉ s) : args = args' := by
  have length : args.length = args'.length := h.argc.symm.trans h'.argc
  refine List.ext_getElem length fun i hi hi' => ?_
  exact holds_unique (h.argv i hi) (clean _ (List.getElem_mem hi)) (h'.argv i hi')
    (clean' _ (List.getElem_mem hi'))

theorem clean_of_strings {ptrs : List Nat}
    (strings : List.Forall₂ (fun s q => q ≠ 0 ∧ m.Holds q (s ++ [0]) ∧ 0 ∉ s) args ptrs) :
    ∀ s ∈ args, 0 ∉ s := by
  induction strings with
  | nil => exact nofun
  | cons head _ ih => exact List.forall_mem_cons.mpr ⟨head.2.2, ih⟩

theorem converted_eq_iff : (args.map chars).map asBytes = args ↔ ∀ s ∈ args, ∀ b ∈ s, b.toNat < 128 := by
  rw [List.map_map]
  constructor
  · intro same s among
    have each : args.map (asBytes ∘ chars) = args.map id := by rw [same, List.map_id]
    exact asBytes_chars_eq_iff.mp (List.map_inj_left.mp each s among)
  · intro ascii
    calc args.map (asBytes ∘ chars) = args.map id :=
          List.map_inj_left.mpr fun s among => asBytes_chars_eq_iff.mpr (ascii s among)
      _ = args := List.map_id _

/-- What is copied to the stack is all that the caller passed, or not. -/
theorem copied_eq_iff : (((args.take 32).takeWhile (·.length ≤ 255)).map chars).map asBytes = args ↔
    args.length ≤ 32 ∧ ∀ s ∈ args, s.length ≤ 255 ∧ ∀ b ∈ s, b.toNat < 128 := by
  have front : (args.take 32).takeWhile (·.length ≤ 255) <+: args :=
    (List.takeWhile_prefix _).trans (List.take_prefix ..)
  constructor
  · intro same
    have length := congrArg List.length same
    simp only [List.length_map] at length
    have whole := front.eq_of_length length
    have few : args.length ≤ 32 := by
      have bound := (List.takeWhile_prefix (p := fun s : List UInt8 => s.length ≤ 255)
        (l := args.take 32)).length_le
      rw [whole, List.length_take] at bound
      omega
    rw [whole] at same
    refine ⟨few, fun s among => ⟨?_, converted_eq_iff.mp same s among⟩⟩
    rw [← whole] at among
    simpa using List.mem_takeWhile_imp among
  · rintro ⟨few, each⟩
    have whole : (args.take 32).takeWhile (·.length ≤ 255) = args := by
      rw [List.take_of_length_le few, List.takeWhile_eq_self_iff]
      exact fun s among => decide_eq_true (each s among).1
    rw [whole]
    exact converted_eq_iff.mpr fun s among => (each s among).2

/-- The stack is built whatever the arguments are, from what was read of them. -/
theorem execveStack_shows (p : Profile) (m : Memory) (argvPtr envpPtr : Nat) {pml4 hi : Nat}
    {frame : Nat → Nat} (elf : ElfInfo) (tsc1 tsc2 : UInt64) (st : Machine Pool) (enough : 128 ≤ hi)
    (window : Window st.mem pml4 (hi - 128) hi frame) (words : elf.Words) :
    ∃ rsp m' vm envp argvPtrs envpPtrs atRandomPtr,
      execveStack p m argvPtr envpPtr pml4 (hi * PAGE_SIZE) elf tsc1 tsc2 st =
        .ok ((rsp, atRandomBytes tsc1 tsc2), ⟨m', st.pool⟩) ∧
      Shows st.mem (hi - 128) hi frame vm m' ∧
      InitialStack vm (hi * PAGE_SIZE) rsp ((readUserCstrArray m argvPtr 32).map asBytes) envp elf
        (atRandomBytes tsc1 tsc2) argvPtrs envpPtrs atRandomPtr := by
  obtain ⟨argvFew, argvShort⟩ := readUserCstrArray_bounded m argvPtr 32
  obtain ⟨envpFew, envpShort⟩ : (if (readUserCstrArray m envpPtr 64).isEmpty then ["PATH=/".toList]
      else readUserCstrArray m envpPtr 64).length ≤ 64 ∧
      ∀ s ∈ (if (readUserCstrArray m envpPtr 64).isEmpty then ["PATH=/".toList]
        else readUserCstrArray m envpPtr 64), s.length ≤ 255 := by
    split
    · exact ⟨by decide, by decide⟩
    · exact readUserCstrArray_bounded m envpPtr 64
  have short := fits_of_short argvFew envpFew fun s among =>
    (List.mem_append.mp among).elim (argvShort s) (envpShort s)
  obtain ⟨rsp, m', vm, argvPtrs, envpPtrs, atRandomPtr, run, -, shows_, -, stack⟩ :=
    buildArgvEnvpStack_ok p tsc1 tsc2 enough window short words
  exact ⟨rsp, m', vm, _, argvPtrs, envpPtrs, atRandomPtr, run, shows_, stack⟩

theorem execveStack_ok (p : Profile) (m : Memory) (argvPtr envpPtr : Nat) {pml4 hi : Nat}
    {frame : Nat → Nat} (elf : ElfInfo) (tsc1 tsc2 : UInt64) (st : Machine Pool) (enough : 128 ≤ hi)
    (window : Window st.mem pml4 (hi - 128) hi frame) (words : elf.Words) :
    ∃ rsp st', execveStack p m argvPtr envpPtr pml4 (hi * PAGE_SIZE) elf tsc1 tsc2 st =
        .ok ((rsp, atRandomBytes tsc1 tsc2), st') ∧
      Delivers (seen (hi - 128) hi frame st'.mem) rsp ((readUserCstrArray m argvPtr 32).map asBytes) := by
  obtain ⟨rsp, m', vm, envp, argvPtrs, envpPtrs, atRandomPtr, run, shows_, stack⟩ :=
    execveStack_shows p m argvPtr envpPtr elf tsc1 tsc2 st enough window words
  refine ⟨rsp, ⟨m', st.pool⟩, run, ?_⟩
  rw [shows_.inside]
  exact stack.delivers

/-- The arguments of a call arrive just if there are at most 32 of them, of at most 255 bytes, all ASCII;
the stack is built in any case. -/
theorem arguments_arrive_iff (p : Profile) (m : Memory) (argvPtr envpPtr pml4 hi : Nat)
    (frame : Nat → Nat) (elf : ElfInfo) (tsc1 tsc2 : UInt64) (st : Machine Pool)
    (args : List (List UInt8)) (supplies : Supplies m argvPtr args) (enough : 128 ≤ hi)
    (window : Window st.mem pml4 (hi - 128) hi frame) (words : elf.Words) :
    ∃ rsp st', execveStack p m argvPtr envpPtr pml4 (hi * PAGE_SIZE) elf tsc1 tsc2 st =
        .ok ((rsp, atRandomBytes tsc1 tsc2), st') ∧
      (Delivers (seen (hi - 128) hi frame st'.mem) rsp args ↔
        args.length ≤ 32 ∧ ∀ s ∈ args, s.length ≤ 255 ∧ ∀ b ∈ s, b.toNat < 128) := by
  obtain ⟨array, ptrs, held, strings⟩ := supplies
  have clean := clean_of_strings strings
  have read : readUserCstrArray m argvPtr 32 =
      ((args.take 32).takeWhile (·.length ≤ 255)).map chars := by
    rw [readUserCstrArray, if_neg array, readCstrs_eq held strings]
  obtain ⟨rsp, st', run, found⟩ := execveStack_ok p m argvPtr envpPtr elf tsc1 tsc2 st enough window
    words
  refine ⟨rsp, st', run, ?_⟩
  rw [read] at found
  rw [← copied_eq_iff]
  constructor
  · intro arrives
    refine (arrives.unique found clean fun s among => ?_).symm
    obtain ⟨_, copied, rfl⟩ := List.mem_map.mp among
    obtain ⟨t, read, rfl⟩ := List.mem_map.mp copied
    exact zero_notMem_asBytes (clean t (List.mem_of_mem_take ((List.takeWhile_prefix _).subset read)))
  · intro same
    rwa [same] at found

/-- A caller with one argument. -/
def callerMemory (s : List UInt8) : Memory :=
  Memory.writeBytes (Memory.write64 (fun _ => 0) 0x1000 0x2000) 0x2000 s

theorem supplies_callerMemory (clean : 0 ∉ s) : Supplies (callerMemory s) 0x1000 [s] := by
  have first : (callerMemory s).read64 0x1000 = 0x2000 := by
    rw [callerMemory, Memory.read64_congr fun x _ high => Memory.writeBytes_outside (by omega)]
    exact (Memory.read64_write64 ..).trans (Nat.mod_eq_of_lt (by decide))
  have second : (callerMemory s).read64 0x1008 = 0 := by
    refine Memory.readLe_zero fun x low high => ?_
    rw [callerMemory, Memory.writeBytes_outside (by omega), Memory.write64_outside (by omega)]
  have last : (callerMemory s).Holds (0x2000 + s.length) [0] := by
    refine Memory.holds_cons.mpr ⟨?_, Memory.holds_nil _ _⟩
    rw [callerMemory, Memory.writeBytes_outside (by omega), Memory.write64_outside (by omega)]
  refine ⟨by decide, [0x2000], ?_, .cons ⟨by decide, ?_, clean⟩ .nil⟩
  · exact Memory.holdsWords_cons.mpr
      ⟨first, Memory.holdsWords_cons.mpr ⟨second, Memory.holdsWords_nil _ _⟩⟩
  · exact Memory.holds_append.mpr ⟨Memory.holds_writeBytes _ _ _, last⟩

/-- The argument `é` in Latin-1 is one byte; two arrive. -/
theorem argument_reencoded : ∃ rsp st',
    execveStack .dev (callerMemory [0xe9]) 0x1000 0 0x1000 (128 * PAGE_SIZE) ⟨0, 0, 0, 0⟩ 0 0
      ⟨stackTables 0x100000, ⟨.new, [], []⟩⟩ = .ok ((rsp, atRandomBytes 0 0), st') ∧
    Supplies (callerMemory [0xe9]) 0x1000 [[0xe9]] ∧
    ¬ Delivers (seen 0 128 (fun q => 0x100000 + q * PAGE_SIZE) st'.mem) rsp [[0xe9]] ∧
    Delivers (seen 0 128 (fun q => 0x100000 + q * PAGE_SIZE) st'.mem) rsp [[0xc3, 0xa9]] := by
  obtain ⟨rsp, st', run, found⟩ := execveStack_ok .dev (callerMemory [0xe9]) 0x1000 0
    ⟨0, 0, 0, 0⟩ 0 0 ⟨stackTables 0x100000, ⟨.new, [], []⟩⟩ (Nat.le_refl _) window_stackTables ⟨by decide, by decide, by decide, by decide⟩
  have read : (readUserCstrArray (callerMemory [0xe9]) 0x1000 32).map asBytes = [[0xc3, 0xa9]] := by
    decide +kernel
  rw [read] at found
  refine ⟨rsp, st', run, supplies_callerMemory (by decide), fun arrives => ?_, found⟩
  have same := arrives.unique found (by decide) (by decide)
  exact absurd same (by decide)

/-- The argument `sh` arrives. -/
theorem argument_arrives : ∃ rsp st',
    execveStack .dev (callerMemory [115, 104]) 0x1000 0 0x1000 (128 * PAGE_SIZE) ⟨0, 0, 0, 0⟩ 0 0
      ⟨stackTables 0x100000, ⟨.new, [], []⟩⟩ = .ok ((rsp, atRandomBytes 0 0), st') ∧
    Delivers (seen 0 128 (fun q => 0x100000 + q * PAGE_SIZE) st'.mem) rsp [[115, 104]] := by
  obtain ⟨rsp, st', run, arrives⟩ := arguments_arrive_iff .dev (callerMemory [115, 104]) 0x1000 0 0x1000
    128 (fun q => 0x100000 + q * PAGE_SIZE) ⟨0, 0, 0, 0⟩ 0 0 ⟨stackTables 0x100000, ⟨.new, [], []⟩⟩
    [[115, 104]] (supplies_callerMemory (by decide)) (Nat.le_refl _) window_stackTables
    ⟨by decide, by decide, by decide, by decide⟩
  exact ⟨rsp, st', run, arrives.mpr (by decide +kernel)⟩

end Exec
end Ferrum
