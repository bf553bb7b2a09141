import Eclair.Lib.Loop
import Eclair.Lib.StrList
import Eclair.Elf.Load

/-!
# Eclair.Elf.Args

How arguments and environment get from the caller of `sys_pexec` to the
`_start` of the new process: measured and packed into kernel buffers by
`sys_pexec`, measured again and packed into the pages from `TASK_ENV_ADDR`
on by `task_entry`, and found by `_start` through two words of the stack.

`kmalloc` is a parameter: it gives out fresh blocks of kernel memory.  Both
address spaces share the kernel half.
-/

namespace Eclair

open Loop ByteMem

def KERNEL_ADDR : Nat := 0xC0000000
def TASK_ENV_START : Nat := 40
def TASK_ENV_ADDR : Nat := 0x28000
def TASK_STACK_ADDR_ARGV : Nat := 0x8008
def TASK_STACK_ADDR_ENVP : Nat := 0x800C

/-! ## `sys_pexec` -/

/-- `while (list[i])`: the number of strings, and their size added to `size`. -/
def measure (m : ByteMem) (list : Nat) : Nat → Nat → Nat → Option (Nat × Nat)
  | 0, _, _ => none
  | fuel + 1, i, size =>
      let p := word m (list + 4 * i)
      if p = 0 then some (i, size)
      else (strlen m FUEL p).bind fun len => measure m list fuel (i + 1) (u32 (size + 4 + (len + 1)))

/-- One round of the packing loop of `sys_pexec`; the state is the memory and
`pos`. -/
def packArg (list new j : Nat) (s : ByteMem × Nat) : Option (ByteMem × Nat) :=
  let arg := new + s.2
  let m := setWord (new + 4 * j) (if word s.1 (list + 4 * j) ≠ 0 then arg else 0) s.1
  let p := word m (list + 4 * j)
  if p = 0 then some (m, s.2)
  else (strlen m FUEL p).map fun len => (copy arg p (len + 1) m, u32 (s.2 + (len + 1)))

/-- Reconstruct `argv` or `envp` in a block that `kmalloc` gives. -/
def copyList (kmalloc : Nat → Nat) (list : Nat) (m : ByteMem) : Option (Nat × ByteMem) :=
  (measure m list FUEL 0 0).bind fun (i, size) =>
    let new := kmalloc (u32 (size + 4))
    (forLoop (packArg list new) 0 (i + 1) (m, u32 ((i + 1) * 4))).map fun (m, _) => (new, m)

/-- What `sys_pexec` hands to `elf_load_task`, and the memory then. -/
structure Pexec where
  npath : Nat
  nargv : Nat
  nenvp : Nat
  mem : ByteMem

/-- `sys_pexec`, up to the call of `elf_load_task`; `kmalloc k` is the call
number `k`. -/
def sysPexec (kmalloc : Nat → Nat → Nat) (path argv envp : Nat) (m : ByteMem) :
    Option (Except Int Pexec) :=
  if path = 0 ∨ argv = 0 then some (.error (-EINVAL))
  else
    let envp := if envp = 0 then word m TASK_STACK_ADDR_ENVP else envp
    (strlen m FUEL path).bind fun len =>
      let pathlen := u32 (len + 1)
      let npath := kmalloc 0 pathlen
      (copyList (kmalloc 1) argv (copy npath path pathlen m)).bind fun (nargv, m) =>
        (copyList (kmalloc 2) envp m).map fun (nenvp, m) => .ok ⟨npath, nargv, nenvp, m⟩

/-! ## `task_entry` -/

/-- One round of the packing loops of `task_entry`; the state is the memory
and `str`. -/
def putArg (list arr j : Nat) (s : ByteMem × Nat) : Option (ByteMem × Nat) :=
  let m := setWord (arr + 4 * j) s.2 s.1
  let p := word m (list + 4 * j)
  (strlen m FUEL p).map fun len =>
    (fill (s.2 + len) 0 1 (copy s.2 p len m), u32 (s.2 + len + 1))

/-- `task_entry`, as far as it copies arguments and environment: the pages it
maps, and the memory then. -/
def copyArguments (argv envp : Nat) (m : ByteMem) : Option (List Nat × ByteMem) :=
  if argv = 0 ∨ envp = 0 then some ([], m)
  else (measure m argv FUEL 0 0).bind fun (argc, size) =>
  (measure m envp FUEL 0 (u32 (size + 4))).bind fun (envc, size) =>
    let size := u32 (size + 4)
    let npages := align size 0x1000 / 0x1000
    let ptr := TASK_ENV_ADDR
    let str := ptr + (argc + envc + 2) * 4
    (forLoop (putArg argv ptr) 0 argc (setWord TASK_STACK_ADDR_ARGV ptr m, str)).bind fun (m, str) =>
      let m := setWord (ptr + 4 * argc) 0 m
      let m := setWord TASK_STACK_ADDR_ENVP (ptr + 4 * (argc + 1)) m
      (forLoop (putArg envp (ptr + 4 * (argc + 1))) 0 envc (m, str)).map fun (m, _) =>
        (List.range' TASK_ENV_START npages, setWord (ptr + 4 * (argc + 1 + envc)) 0 m)

/-! ## `_start` -/

/-- What `_start` passes on. -/
structure LibcStart where
  argc : Nat
  argv : Nat
  envp : Nat
  deriving DecidableEq, Repr

/-- `while (__libc_argv[argc]) argc++;` -/
def countArgs (m : ByteMem) (argv : Nat) : Nat → Nat → Option Nat
  | 0, _ => none
  | fuel + 1, argc =>
      if word m (argv + 4 * argc) = 0 then some argc else countArgs m argv fuel (argc + 1)

/-- `_start`, with `__libc_base` at `0x8008`. -/
def start (m : ByteMem) : Option LibcStart :=
  let argv := word m 0x8008
  let envp := word m (0x8008 + 4)
  (countArgs m argv FUEL 0).map fun argc => ⟨argc, argv, envp⟩

/-! ## measuring and packing -/

variable {P : Nat → Prop} {m : ByteMem} {a fuel i size : Nat} {ss : List Bytes}

/-- The bytes of a block. -/
def InBlock (a size x : Nat) : Prop := a ≤ x ∧ x < a + size

/-- **Measuring** counts the strings and adds up their sizes. -/
theorem measure_eq (h : StrList P m a ss) (hi : i ≤ ss.length) (hfuel : ss.length - i < fuel)
    (hsize : size + 4 * (ss.length - i) + (strOff ss ss.length - strOff ss i) < 2 ^ 32) :
    measure m a fuel i size =
      some (ss.length, size + 4 * (ss.length - i) + (strOff ss ss.length - strOff ss i)) := by
  induction fuel generalizing i size with
  | zero => omega
  | succ fuel ih =>
      rw [measure]
      cases hs : ss[i]? with
      | none =>
          have hlen := List.getElem?_eq_none_iff.mp hs
          obtain rfl : i = ss.length := by omega
          rw [if_pos h.null]
          simp
      | some s =>
          have hlt : i < ss.length := (List.getElem?_eq_some_iff.mp hs).1
          obtain ⟨h0, hstr⟩ := h.ptr i s hs
          have hoff := strOff_succ hs
          have hle : strOff ss (i + 1) ≤ strOff ss ss.length := strOff_le hlt
          have hfit : s.length < FUEL := by
            rw [FUEL]
            omega
          rw [if_neg h0, hstr.strlen hfit, Option.bind_some, u32_of_lt (by omega),
            ih (i := i + 1) hlt (by omega) (by omega)]
          congr 2
          omega

/-- **Packing** a list into a block that does not overlap it. -/
theorem copyList_spec {kmalloc : Nat → Nat} (h : StrList P m a ss)
    (hP : ∀ x, P x → ¬ InBlock (kmalloc (listSize ss)) (listSize ss) x)
    (hblock : kmalloc (listSize ss) + listSize ss ≤ 2 ^ 32) (hpos : 0 < kmalloc (listSize ss)) :
    ∃ m', copyList kmalloc a m = some (kmalloc (listSize ss), m') ∧
      StrList (InBlock (kmalloc (listSize ss)) (listSize ss)) m' (kmalloc (listSize ss)) ss ∧
      ∀ x, ¬ InBlock (kmalloc (listSize ss)) (listSize ss) x → m' x = m x := by
  obtain ⟨new, hnew⟩ : ∃ new, kmalloc (listSize ss) = new := ⟨_, rfl⟩
  rw [hnew] at hP hblock hpos ⊢
  have hls : listSize ss = 4 * (ss.length + 1) + strOff ss ss.length := rfl
  have hmeasure : measure m a FUEL 0 0 = some (ss.length, 4 * ss.length + strOff ss ss.length) := by
    rw [measure_eq h (Nat.zero_le _) (by rw [FUEL]; omega) (by rw [strOff_zero]; omega)]
    simp
  have hsrc : ∀ m', (∀ x, ¬ InBlock new (listSize ss) x → m' x = m x) → StrList P m' a ss :=
    fun m' hm => h.congr fun x hx => hm x (hP x hx)
  have hloop := forLoop_spec (f := packArg a new) (i := 0) (n := ss.length)
    (s := (m, 4 * (ss.length + 1)))
    (I := fun j s => s.2 = 4 * (ss.length + 1) + strOff ss j ∧
      Packed new (new + 4 * (ss.length + 1)) ss j m s.1)
    ?_ ⟨rfl, packed_zero⟩
  · obtain ⟨⟨m', pos⟩, hrun, hpos', hpacked⟩ := hloop
    rw [Nat.zero_add] at hpos' hpacked
    dsimp only at hpos' hpacked
    have hframe : ∀ x, ¬ InBlock new (listSize ss) x → m' x = m x := by
      intro x hx
      rw [InBlock, hls] at hx
      exact hpacked.frame x (by omega) (by omega)
    have hnull := (hsrc m' hframe).null
    have hword : word (setWord (new + 4 * ss.length) 0 m') (a + 4 * ss.length) = 0 := by
      refine (hsrc _ fun x hx => ?_).null
      rw [InBlock, hls] at hx
      rw [setWord_outside (by omega)]
      exact hframe x (by rw [InBlock, hls]; exact hx)
    refine ⟨setWord (new + 4 * ss.length) 0 m', ?_, ?_, fun x hx => ?_⟩
    · rw [copyList, hmeasure, Option.bind_some]
      dsimp only
      rw [u32_of_lt (by omega), u32_of_lt (by omega),
        show 4 * ss.length + strOff ss ss.length + 4 = listSize ss by omega, hnew, forLoop_succ,
        Nat.mul_comm, hrun, Option.bind_some, packArg, Nat.zero_add]
      dsimp only
      simp only [hnull, ne_eq, not_true, if_false]
      rw [if_pos hword]
      rfl
    · refine (hpacked.strList _ (by omega) (fun x hx => setWord_outside (by omega))
        (word_setWord (by decide))).mono fun x hx => ?_
      rw [InBlock, hls]
      omega
    · rw [InBlock, hls] at hx
      rw [setWord_outside (by omega)]
      exact hframe x (by rw [InBlock, hls]; exact hx)
  · intro j s _ hj hinv
    obtain ⟨m', pos⟩ := s
    obtain ⟨hpos', hpacked⟩ := hinv
    dsimp only at hpos' hpacked
    obtain ⟨s, hs⟩ : ∃ s, ss[j]? = some s := ⟨_, List.getElem?_eq_getElem (by omega)⟩
    have hjlt : j < ss.length := by omega
    have hoff := strOff_succ hs
    have hle : strOff ss (j + 1) ≤ strOff ss ss.length := strOff_le hjlt
    have hframe : ∀ x, ¬ InBlock new (listSize ss) x → m' x = m x := by
      intro x hx
      rw [InBlock, hls] at hx
      exact hpacked.frame x (by omega) (by omega)
    have hset : ∀ v x, ¬ InBlock new (listSize ss) x → setWord (new + 4 * j) v m' x = m x := by
      intro v x hx
      have hin := hx
      rw [InBlock, hls] at hin
      rw [setWord_outside (by omega)]
      exact hframe x hx
    have h0 := ((hsrc m' hframe).ptr j s hs).1
    obtain ⟨h1, hstr⟩ := (hsrc _ (hset (new + pos))).ptr j s hs
    have hfit : s.length < FUEL := by
      rw [FUEL]
      omega
    have hpos'' : new + pos = new + 4 * (ss.length + 1) + strOff ss j := by omega
    refine ⟨(copy (new + pos) (word (setWord (new + 4 * j) (new + pos) m') (a + 4 * j)) (s.length + 1)
      (setWord (new + 4 * j) (new + pos) m'), u32 (pos + (s.length + 1))), ?_, ?_, ?_⟩
    · rw [packArg]
      dsimp only
      rw [if_pos h0, if_neg h1, hstr.strlen hfit]
      rfl
    · dsimp only
      rw [u32_of_lt (by omega)]
      omega
    · rw [hpos'']
      rw [hpos''] at hstr
      refine hpacked.step hs hstr.nonzero (by omega) (by omega) (fun i hi => ?_) fun x hx => ?_
      · dsimp only
        rw [copy, write_inside (by omega)]
        exact hstr.byte i hi
      · exact copy_outside (by omega)

/-- **Packing** the strings of a list that the packed ones do not overlap. -/
theorem putArgs_spec (arr str : Nat) (h : StrList P m a ss)
    (hP : ∀ x, P x → ¬ InBlock arr (4 * ss.length) x ∧ ¬ InBlock str (strOff ss ss.length) x)
    (hsep : arr + 4 * ss.length ≤ str) (hlt : str + strOff ss ss.length < 2 ^ 32) :
    ∃ m', forLoop (putArg a arr) 0 ss.length (m, str) = some (m', str + strOff ss ss.length) ∧
      Packed arr str ss ss.length m m' := by
  have hloop := forLoop_spec (f := putArg a arr) (i := 0) (n := ss.length) (s := (m, str))
    (I := fun j s => s.2 = str + strOff ss j ∧ Packed arr str ss j m s.1) ?_ ⟨rfl, packed_zero⟩
  · obtain ⟨⟨m', str'⟩, hrun, hstr', hpacked⟩ := hloop
    rw [Nat.zero_add] at hstr' hpacked
    exact ⟨m', by rw [hrun, ← hstr'], hpacked⟩
  · intro j s _ hj hinv
    obtain ⟨m', str'⟩ := s
    obtain ⟨hstr', hpacked⟩ := hinv
    dsimp only at hstr' hpacked
    subst hstr'
    obtain ⟨s, hs⟩ : ∃ s, ss[j]? = some s := ⟨_, List.getElem?_eq_getElem (by omega)⟩
    have hjlt : j < ss.length := by omega
    have hoff := strOff_succ hs
    have hle : strOff ss (j + 1) ≤ strOff ss ss.length := strOff_le hjlt
    have hset : ∀ x, P x → setWord (arr + 4 * j) (str + strOff ss j) m' x = m x := by
      intro x hx
      have hout := hP x hx
      rw [InBlock, InBlock] at hout
      rw [setWord_outside (by omega)]
      exact hpacked.frame x (by omega) (by omega)
    obtain ⟨-, hstr⟩ := (h.congr hset).ptr j s hs
    have hfit : s.length < FUEL := by
      rw [FUEL]
      omega
    have hround : putArg a arr j (m', str + strOff ss j) = some
        (fill (str + strOff ss j + s.length) 0 1 (copy (str + strOff ss j)
          (word (setWord (arr + 4 * j) (str + strOff ss j) m') (a + 4 * j)) s.length
          (setWord (arr + 4 * j) (str + strOff ss j) m')),
        u32 (str + strOff ss j + s.length + 1)) := by
      rw [putArg]
      dsimp only
      rw [hstr.strlen hfit, Option.map_some]
    refine ⟨_, hround, ?_, ?_⟩
    · dsimp only
      rw [u32_of_lt (by omega)]
      omega
    · refine hpacked.step hs hstr.nonzero hsep (by omega) (fun i hi => ?_) fun x hx => ?_
      · dsimp only
        by_cases hlast : i = s.length
        · subst hlast
          rw [fill, write, if_pos (by omega)]
          simp
        · rw [fill, write_outside (by omega), copy, write_inside (by omega)]
          exact hstr.byte i hi
      · dsimp only
        rw [fill, write_outside (by omega), copy_outside (by omega)]

/-! ## the environment pages -/

/-- The byte lies in one of the pages. -/
def InPages (pages : List Nat) (x : Nat) : Prop := x / 0x1000 ∈ pages

/-- The pages that `task_entry` maps hold what it packs. -/
theorem inPages_env {size x : Nat} (hsize : size < 2 ^ 31) (h : InBlock TASK_ENV_ADDR size x) :
    InPages (List.range' TASK_ENV_START (align size 0x1000 / 0x1000)) x := by
  have hle : size ≤ align size 0x1000 := le_align (by decide) (by omega)
  have hdvd := Nat.div_mul_cancel (dvd_align size 0x1000)
  obtain ⟨h1, h2⟩ := h
  rw [InPages, List.mem_range'_1]
  rw [TASK_ENV_ADDR] at h1 h2
  rw [TASK_ENV_START]
  omega

/-- The copies that `task_entry` makes: the arrays, where it stores their
addresses, and what it leaves as it was. -/
structure Copied (args envs : List Bytes) (pages : List Nat) (m m' : ByteMem) : Prop where
  argv : StrList (InPages pages) m' (word m' TASK_STACK_ADDR_ARGV) args
  envp : StrList (InPages pages) m' (word m' TASK_STACK_ADDR_ENVP) envs
  frame : ∀ x, ¬ InPages pages x → ¬ InBlock TASK_STACK_ADDR_ARGV 8 x → m' x = m x

/-- **The copy into the environment pages** of two lists in kernel memory. -/
theorem copyArguments_spec {K : Nat → Prop} {argv envp : Nat} {args envs : List Bytes}
    (hK : ∀ x, K x → KERNEL_ADDR ≤ x) (hA : StrList K m argv args) (hE : StrList K m envp envs)
    (hargv : argv ≠ 0) (henvp : envp ≠ 0)
    (hfit : listSize args + listSize envs ≤ TASK_PROG_ADDR - TASK_ENV_ADDR) :
    ∃ pages m', copyArguments argv envp m = some (pages, m') ∧ Copied args envs pages m m' := by
  have hptr : TASK_ENV_ADDR = 0x28000 := rfl
  have hprog : TASK_PROG_ADDR = 0x800000 := rfl
  have hkern : KERNEL_ADDR = 0xC0000000 := rfl
  have hav : TASK_STACK_ADDR_ARGV = 0x8008 := rfl
  have hev : TASK_STACK_ADDR_ENVP = 0x800C := rfl
  have hlsA : listSize args = 4 * (args.length + 1) + strOff args args.length := rfl
  have hlsE : listSize envs = 4 * (envs.length + 1) + strOff envs envs.length := rfl
  -- the first pass
  have hmA : measure m argv FUEL 0 0 = some (args.length, 4 * args.length + strOff args args.length) := by
    rw [measure_eq hA (Nat.zero_le _) (by rw [FUEL]; omega) (by rw [strOff_zero]; omega)]
    simp
  have hmE : measure m envp FUEL 0 (listSize args) =
      some (envs.length, listSize args + 4 * envs.length + strOff envs envs.length) := by
    rw [measure_eq hE (Nat.zero_le _) (by rw [FUEL]; omega) (by rw [strOff_zero]; omega)]
    simp
  -- the arguments
  have hsrc : ∀ m' argv' ss, StrList K m argv' ss → (∀ x, KERNEL_ADDR ≤ x → m' x = m x) →
      StrList K m' argv' ss := fun m' _ _ h hm => h.congr fun x hx => hm x (hK x hx)
  obtain ⟨m₁, hm₁⟩ : ∃ m₁, setWord TASK_STACK_ADDR_ARGV TASK_ENV_ADDR m = m₁ := ⟨_, rfl⟩
  have hf₁ : ∀ x, ¬ InBlock TASK_STACK_ADDR_ARGV 4 x → m₁ x = m x := by
    intro x hx
    rw [← hm₁]
    exact setWord_outside hx
  obtain ⟨str, hstr⟩ : ∃ str, TASK_ENV_ADDR + (args.length + envs.length + 2) * 4 = str := ⟨_, rfl⟩
  obtain ⟨m₂, hrun₂, hp₂⟩ := putArgs_spec TASK_ENV_ADDR str
    (hsrc m₁ argv args hA fun x hx => hf₁ x (by rw [InBlock]; omega))
    (fun x hx => by
      have hx' := hK x hx
      rw [InBlock, InBlock]
      omega) (by omega) (by omega)
  have hf₂ : ∀ x, ¬ InBlock TASK_ENV_ADDR (4 * args.length) x → ¬ InBlock str (strOff args args.length) x →
      m₂ x = m₁ x := hp₂.frame
  -- the null pointer behind them, and where the environment starts
  obtain ⟨env, henv⟩ : ∃ env, TASK_ENV_ADDR + 4 * (args.length + 1) = env := ⟨_, rfl⟩
  obtain ⟨m₃, hm₃⟩ : ∃ m₃, setWord (TASK_ENV_ADDR + 4 * args.length) 0 m₂ = m₃ := ⟨_, rfl⟩
  have hf₃ : ∀ x, ¬ InBlock (TASK_ENV_ADDR + 4 * args.length) 4 x → m₃ x = m₂ x := by
    intro x hx
    rw [← hm₃]
    exact setWord_outside hx
  obtain ⟨m₄, hm₄⟩ : ∃ m₄, setWord TASK_STACK_ADDR_ENVP env m₃ = m₄ := ⟨_, rfl⟩
  have hf₄ : ∀ x, ¬ InBlock TASK_STACK_ADDR_ENVP 4 x → m₄ x = m₃ x := by
    intro x hx
    rw [← hm₄]
    exact setWord_outside hx
  -- the environment
  have hframe₄ : ∀ x, ¬ InBlock TASK_ENV_ADDR (listSize args + listSize envs) x →
      ¬ InBlock TASK_STACK_ADDR_ARGV 8 x → m₄ x = m x := by
    intro x h1 h2
    rw [InBlock] at h1 h2
    rw [hf₄ x (by rw [InBlock]; omega), hf₃ x (by rw [InBlock]; omega),
      hf₂ x (by rw [InBlock]; omega) (by rw [InBlock]; omega), hf₁ x (by rw [InBlock]; omega)]
  obtain ⟨m₅, hrun₅, hp₅⟩ := putArgs_spec env (str + strOff args args.length)
    (hsrc m₄ envp envs hE fun x hx => hframe₄ x (by rw [InBlock]; omega) (by rw [InBlock]; omega))
    (fun x hx => by
      have hx' := hK x hx
      rw [InBlock, InBlock]
      omega) (by omega) (by omega)
  have hf₅ : ∀ x, ¬ InBlock env (4 * envs.length) x →
      ¬ InBlock (str + strOff args args.length) (strOff envs envs.length) x → m₅ x = m₄ x := hp₅.frame
  obtain ⟨m₆, hm₆⟩ : ∃ m₆, setWord (env + 4 * envs.length) 0 m₅ = m₆ := ⟨_, rfl⟩
  have hf₆ : ∀ x, ¬ InBlock (env + 4 * envs.length) 4 x → m₆ x = m₅ x := by
    intro x hx
    rw [← hm₆]
    exact setWord_outside hx
  refine ⟨List.range' TASK_ENV_START (align (listSize args + listSize envs) 0x1000 / 0x1000), m₆, ?_, ?_⟩
  · rw [copyArguments, if_neg (by omega), hmA, Option.bind_some]
    dsimp only
    rw [u32_of_lt (by omega), show 4 * args.length + strOff args args.length + 4 = listSize args by omega,
      hmE, Option.bind_some]
    dsimp only
    rw [hm₁, hstr, hrun₂, Option.bind_some]
    dsimp only
    rw [hm₃, henv, hm₄, hrun₅, Option.map_some, u32_of_lt (by omega),
      show listSize args + 4 * envs.length + strOff envs envs.length + 4 = listSize args + listSize envs by omega,
      show TASK_ENV_ADDR + 4 * (args.length + 1 + envs.length) = env + 4 * envs.length by omega, hm₆]
  have hin : ∀ x, InBlock TASK_ENV_ADDR (listSize args + listSize envs) x →
      InPages (List.range' TASK_ENV_START (align (listSize args + listSize envs) 0x1000 / 0x1000)) x :=
    fun x hx => inPages_env (by omega) hx
  -- the two words of the stack
  have hwordA : word m₆ TASK_STACK_ADDR_ARGV = TASK_ENV_ADDR := by
    rw [← word_setWord (a := TASK_STACK_ADDR_ARGV) (m := m) (v := TASK_ENV_ADDR) (by omega), hm₁]
    refine word_congr fun i hi => ?_
    rw [hf₆ _ (by rw [InBlock]; omega), hf₅ _ (by rw [InBlock]; omega) (by rw [InBlock]; omega),
      hf₄ _ (by rw [InBlock]; omega), hf₃ _ (by rw [InBlock]; omega),
      hf₂ _ (by rw [InBlock]; omega) (by rw [InBlock]; omega)]
  have hwordE : word m₆ TASK_STACK_ADDR_ENVP = env := by
    rw [← word_setWord (a := TASK_STACK_ADDR_ENVP) (m := m₃) (v := env) (by omega), hm₄]
    refine word_congr fun i hi => ?_
    rw [hf₆ _ (by rw [InBlock]; omega), hf₅ _ (by rw [InBlock]; omega) (by rw [InBlock]; omega)]
  constructor
  · have hlist := hp₂.strList m₃ (by omega)
      (fun x hx => hf₃ x (by rw [InBlock]; omega))
      (by rw [← hm₃]; exact word_setWord (by decide))
    rw [hwordA]
    refine (hlist.congr fun x hx => ?_).mono fun x hx => hin x ?_
    · rw [hf₆ x (by rw [InBlock]; omega), hf₅ x (by rw [InBlock]; omega) (by rw [InBlock]; omega),
        hf₄ x (by rw [InBlock]; omega)]
    · rw [InBlock]
      omega
  · have hlist := hp₅.strList m₆ (by omega)
      (fun x hx => hf₆ x (by rw [InBlock]; omega))
      (by rw [← hm₆]; exact word_setWord (by decide))
    rw [hwordE]
    refine hlist.mono fun x hx => hin x ?_
    rw [InBlock]
    omega
  · intro x h1 h2
    have hout : ¬ InBlock TASK_ENV_ADDR (listSize args + listSize envs) x := fun hx => h1 (hin x hx)
    rw [InBlock] at hout
    rw [hf₆ x (by rw [InBlock]; omega), hf₅ x (by rw [InBlock]; omega) (by rw [InBlock]; omega)]
    exact hframe₄ x hout h2

theorem countArgs_eq (h : StrList P m a ss) (hi : i ≤ ss.length) (hfuel : ss.length - i < fuel) :
    countArgs m a fuel i = some ss.length := by
  induction fuel generalizing i with
  | zero => omega
  | succ fuel ih =>
      rw [countArgs]
      by_cases hlast : i = ss.length
      · rw [hlast, if_pos h.null]
      · have hlt : i < ss.length := by omega
        obtain ⟨s, hs⟩ : ∃ s, ss[i]? = some s := ⟨_, List.getElem?_eq_getElem hlt⟩
        rw [if_neg (h.ptr i s hs).1]
        exact ih hlt (by omega)

/-! ## from the caller to the new process -/

/-- A call of `sys_pexec`: the registers, the memory of the caller with the
strings in it, and what `kmalloc` gives. -/
structure PexecInput where
  mem : ByteMem
  path : Nat
  argv : Nat
  envp : Nat
  file : Bytes
  args : List Bytes
  envs : List Bytes
  kmalloc : Nat → Nat → Nat

namespace PexecInput

/-- The size of the block for the path, the arguments and the environment. -/
def blockSize (c : PexecInput) : Nat → Nat
  | 0 => c.file.length + 1
  | 1 => listSize c.args
  | _ => listSize c.envs

/-- The bytes of block `k`. -/
def Block (c : PexecInput) (k x : Nat) : Prop := InBlock (c.kmalloc k (c.blockSize k)) (c.blockSize k) x

/-- The memory outside the blocks. -/
def Outside (c : PexecInput) (x : Nat) : Prop := x < 2 ^ 32 ∧ ∀ k, k < 3 → ¬ c.Block k x

end PexecInput

/-- The strings are in memory that `kmalloc` does not give away and fit between
`TASK_ENV_ADDR` and `TASK_PROG_ADDR`, and the blocks of `kmalloc` are apart in
kernel memory. -/
structure PexecCall extends PexecInput where
  path_ne : path ≠ 0
  argv_ne : argv ≠ 0
  file_at : CStr toPexecInput.Outside mem path file
  args_at : StrList toPexecInput.Outside mem argv args
  envs_at : StrList toPexecInput.Outside mem (if envp = 0 then word mem TASK_STACK_ADDR_ENVP else envp) envs
  fits : listSize args + listSize envs ≤ TASK_PROG_ADDR - TASK_ENV_ADDR
  kernel : ∀ k, k < 3 → KERNEL_ADDR ≤ kmalloc k (toPexecInput.blockSize k) ∧
    kmalloc k (toPexecInput.blockSize k) + toPexecInput.blockSize k ≤ 2 ^ 32
  apart : ∀ i j x, i < 3 → j < 3 → i ≠ j → toPexecInput.Block i x → ¬ toPexecInput.Block j x

namespace PexecCall

/-- `sys_pexec` writes to its blocks only; and in whatever memory the new task
runs, if the blocks are as `sys_pexec` left them, `task_entry` writes only to
the pages it maps and to `more`, and `_start` finds the strings there. -/
def HandsOver (c : PexecCall) (more : Nat → Prop) : Prop :=
  ∃ r, sysPexec c.kmalloc c.path c.argv c.envp c.mem = some (.ok r) ∧
    (∀ x, (∀ k, k < 3 → ¬ c.Block k x) → r.mem x = c.mem x) ∧
    ∀ m, (∀ k x, k < 3 → c.Block k x → m x = r.mem x) →
      ∃ pages m', copyArguments r.nargv r.nenvp m = some (pages, m') ∧
        (∀ x, ¬ InPages pages x → ¬ more x → m' x = m x) ∧
        ∃ st, start m' = some st ∧ st.argc = c.args.length ∧
          StrList (InPages pages) m' st.argv c.args ∧ StrList (InPages pages) m' st.envp c.envs

variable {c : PexecCall}

/-- The packing of `sys_pexec`. -/
theorem sysPexec_spec (c : PexecCall) :
    ∃ r, sysPexec c.kmalloc c.path c.argv c.envp c.mem = some (.ok r) ∧
      r.nargv = c.kmalloc 1 (c.blockSize 1) ∧ r.nenvp = c.kmalloc 2 (c.blockSize 2) ∧
      StrList (c.Block 1) r.mem r.nargv c.args ∧ StrList (c.Block 2) r.mem r.nenvp c.envs ∧
      ∀ x, (∀ k, k < 3 → ¬ c.Block k x) → r.mem x = c.mem x := by
  have hkern : KERNEL_ADDR = 0xC0000000 := rfl
  have hpath := c.path_ne
  have hlast := (c.file_at.inside c.file.length (Nat.le_refl _)).1
  have hfit : c.file.length < FUEL := by
    rw [FUEL]
    omega
  -- the path
  obtain ⟨m₁, hm₁⟩ : ∃ m₁, copy (c.kmalloc 0 (c.file.length + 1)) c.path (c.file.length + 1) c.mem = m₁ :=
    ⟨_, rfl⟩
  have hf₁ : ∀ x, ¬ c.Block 0 x → m₁ x = c.mem x := by
    intro x hx
    rw [← hm₁]
    exact copy_outside hx
  -- the arguments
  have hargs := c.args_at.congr fun x hx => hf₁ x (hx.2 0 (by decide))
  obtain ⟨m₂, hrun₂, hlist₂, hf₂⟩ := copyList_spec hargs (fun x hx => hx.2 1 (by decide))
    (c.kernel 1 (by decide)).2 (Nat.lt_of_lt_of_le (by decide) (c.kernel 1 (by decide)).1)
  -- the environment
  have henvs := c.envs_at.congr fun x hx => (hf₂ x (hx.2 1 (by decide))).trans
    (hf₁ x (hx.2 0 (by decide)))
  obtain ⟨m₃, hrun₃, hlist₃, hf₃⟩ := copyList_spec henvs (fun x hx => hx.2 2 (by decide))
    (c.kernel 2 (by decide)).2 (Nat.lt_of_lt_of_le (by decide) (c.kernel 2 (by decide)).1)
  refine ⟨⟨c.kmalloc 0 (c.file.length + 1), _, _, m₃⟩, ?_, rfl, rfl, ?_, hlist₃, fun x hx => ?_⟩
  · rw [sysPexec, if_neg (by have h1 := c.path_ne; have h2 := c.argv_ne; omega)]
    dsimp only
    rw [c.file_at.strlen hfit, Option.bind_some, u32_of_lt (by omega), hm₁, hrun₂, Option.bind_some]
    dsimp only
    rw [hrun₃]
    rfl
  · exact hlist₂.congr fun x hx => hf₃ x (c.apart 1 2 x (by decide) (by decide) (by decide) hx)
  · exact ((hf₃ x (hx 2 (by decide))).trans (hf₂ x (hx 1 (by decide)))).trans (hf₁ x (hx 0 (by decide)))

end PexecCall

/-- No arguments and no environment. -/
def emptyInput : PexecInput where
  mem _ := 0
  path := 0x900000
  argv := 0x900000
  envp := 0x900000
  file := []
  args := []
  envs := []
  kmalloc k _ := 0xC0100000 + 0x1000 * k

theorem emptyInput_blockSize : ∀ k, k < 3 → emptyInput.blockSize k ≤ 4 := by decide

theorem emptyInput_outside {x : Nat} (h : x < KERNEL_ADDR) : emptyInput.Outside x := by
  rw [KERNEL_ADDR] at h
  refine ⟨by omega, fun k _ hb => ?_⟩
  have hge : 0xC0100000 + 0x1000 * k ≤ x := hb.1
  omega

def emptyCall : PexecCall where
  toPexecInput := emptyInput
  path_ne := by decide
  argv_ne := by decide
  file_at := by
    refine ⟨fun _ h => (by cases h), fun i hi => ?_, fun i hi => ?_⟩
    · obtain rfl := Nat.le_zero.mp hi
      exact emptyInput_outside (by decide)
    · obtain rfl := Nat.le_zero.mp hi
      rfl
  args_at := ⟨fun _ _ h => emptyInput_outside (Nat.lt_trans h (by decide)), fun _ _ h => (by cases h), rfl⟩
  envs_at := ⟨fun _ _ h => emptyInput_outside (Nat.lt_trans h (by decide)), fun _ _ h => (by cases h), rfl⟩
  fits := by decide
  kernel := by decide
  apart := by
    intro i j x hi hj hij h1 h2
    have hsi := emptyInput_blockSize i hi
    have hsj := emptyInput_blockSize j hj
    simp only [PexecInput.Block, InBlock, emptyInput] at h1 h2 hsi hsj
    omega

end Eclair
