import MiaowOs.Lib.Interference
import MiaowOs.Mm.AddressMap

/-!
# The switch to virtual addresses

What `boot.S`, the end of `mmu_init` and `cpu_uninstall_idmap` do to the translation
of addresses. The processor may see a register write early, up to the next `isb`;
it may fill and drop entries of its TLB whenever it likes, also stale ones, up to the
`dsb` behind a `tlbi`. Under all this the code has to find its next instruction, its
stack and its data where they are.
-/

namespace MiaowOs
open Interference

/-- The registers of the translation. -/
inductive TransReg
  | sctlr
  | tcr
  | mair
  | ttbr0
  | ttbr1
deriving DecidableEq, Repr

/-- The instructions of the switch. -/
inductive SwitchOp
  | msr (register : TransReg) (value : Nat)
  /-- Read a register, clear and set some bits, and write it back. -/
  | update (register : TransReg) (clear set : Nat)
  | isb
  | tlbi
  | dsb
  /-- Any number of other instructions. -/
  | other

/-- The memory management unit: the registers as it sees them, as they have been
written last, and the translations it holds. -/
structure Mmu where
  live : TransReg → Nat
  written : TransReg → Nat
  tlb : Nat → Option (Nat × Nat)
  /-- A `tlbi` waits for its `dsb`. -/
  flushing : Bool

/-- What an instruction does. -/
def Mmu.exec : SwitchOp → Mmu → Mmu
  | .msr r v, m => { m with written := Function.update m.written r v }
  | .update r clear set, m => { m with written := Function.update m.written r ((m.written r &&& not64 clear) ||| set) }
  | .isb, m => { m with live := m.written }
  | .tlbi, m => { m with flushing := true }
  | .dsb, m => if m.flushing then { m with tlb := fun _ => none, flushing := false } else m
  | .other, m => m

/-! ## The hardware -/

/-- The bits of a physical address, by `TCR_EL1.IPS`. -/
def outputBits (tcr : Nat) : Nat :=
  match tcr >>> 32 &&& 7 with
  | 0 => 32
  | 1 => 36
  | 2 => 40
  | 3 => 42
  | 4 => 44
  | _ => 48

/-- `TCR_EL1` has addresses of 39 bits and pages of 4 KiB walked in the lower half. -/
def Lower (tcr addr : Nat) : Prop := tcr &&& 0x3f = 25 ∧ tcr >>> 7 &&& 1 = 0 ∧ tcr >>> 14 &&& 3 = 0 ∧ addr < 2 ^ 39

/-- And in the upper half. -/
def Upper (tcr addr : Nat) : Prop :=
  tcr >>> 16 &&& 0x3f = 25 ∧ tcr >>> 23 &&& 1 = 0 ∧ tcr >>> 30 &&& 3 = 2 ∧ 2 ^ 64 - 2 ^ 39 ≤ addr ∧ addr < 2 ^ 64

instance (tcr addr : Nat) : Decidable (Lower tcr addr) := inferInstanceAs (Decidable (_ ∧ _))
instance (tcr addr : Nat) : Decidable (Upper tcr addr) := inferInstanceAs (Decidable (_ ∧ _))

/-- The walk that the registers call for. Other sizes and granules are no part of this
kernel and count as faults. -/
def walk (mem : Nat → Nat) (registers : TransReg → Nat) (addr : Nat) : Option (Nat × Nat) :=
  let found :=
    if Lower (registers .tcr) addr then translate mem (registers .ttbr0 &&& pteAddrMask) addr
    else if Upper (registers .tcr) addr then translate mem (registers .ttbr1 &&& pteAddrMask) addr
    else none
  found.filter fun t => t.1 < 2 ^ outputBits (registers .tcr)

def Mmu.Enabled (m : Mmu) : Prop := m.live .sctlr &&& 1 = 1

instance (m : Mmu) : Decidable m.Enabled := inferInstanceAs (Decidable (_ = _))

/-- `SCTLR_EL1.WXN`: what is writable is not executable. -/
def Mmu.WriteXorExecute (m : Mmu) : Prop := m.live .sctlr >>> 19 &&& 1 = 1

/-- What an access may see: with the MMU off its own address and no attribute that
denies anything, else the walk, or what the TLB holds. -/
inductive Mmu.Sees (mem : Nat → Nat) (m : Mmu) (addr : Nat) : Option (Nat × Nat) → Prop
  | flat (off : ¬ m.Enabled) : m.Sees mem addr (some (addr, 0))
  | walk (on : m.Enabled) : m.Sees mem addr (walk mem m.live addr)
  | cached {t : Nat × Nat} (on : m.Enabled) (held : m.tlb addr = some t) : m.Sees mem addr (some t)

/-- What the processor may do between two instructions. -/
inductive Drift (mem : Nat → Nat) : Mmu → Mmu → Prop
  /-- A register write takes effect. -/
  | settle (m : Mmu) (r : TransReg) : Drift mem m { m with live := Function.update m.live r (m.written r) }
  | fill {m : Mmu} {addr : Nat} {t : Nat × Nat} (on : m.Enabled) (walked : walk mem m.live addr = some t) :
    Drift mem m { m with tlb := Function.update m.tlb addr (some t) }
  | evict (m : Mmu) (addr : Nat) : Drift mem m { m with tlb := Function.update m.tlb addr none }

/-- A run of the instructions. -/
abbrev Switches (mem : Nat → Nat) : List SwitchOp → Mmu → Mmu → Prop := Steps (Drift mem) Mmu.exec

/-! ## The code -/

abbrev mairValue : Nat := 0x00 ||| 0x44 <<< 8
abbrev tcrValue : Nat := 25 ||| 3 <<< 12 ||| 25 <<< 16 ||| 3 <<< 28 ||| 2 <<< 30

/-- `mmu_init` from where the tables are built. -/
def mmuInitSwitch (l : PgLayout) : List SwitchOp :=
  [.dsb, .msr .mair mairValue, .msr .tcr tcrValue, .msr .ttbr0 l.idmapPgDir, .msr .ttbr1 l.swapperPgDir, .isb, .tlbi,
    .dsb, .isb, .update .sctlr (1 <<< 1 ||| 1 <<< 2 ||| 1 <<< 12 ||| 1 <<< 19) 1, .isb]

/-- `cpu_uninstall_idmap`. -/
def cpuUninstallIdmap (l : PgLayout) : List SwitchOp := [.msr .ttbr0 l.userPgDir, .isb, .tlbi, .dsb, .isb]

/-- The code that runs at physical addresses, from `_start` to `br x0`. -/
def lowCode (l : PgLayout) : List SwitchOp :=
  [.update .sctlr 0x1005 0, .isb, .other] ++ mmuInitSwitch l ++ [.other]

/-- The code that runs in the linear map, from `__mmap_switched` to `start_kernel`. -/
def highCode (l : PgLayout) : List SwitchOp := [.other, .isb, .other] ++ cpuUninstallIdmap l ++ [.other]

/-- The loop `clear_bss` of `_start`, on memory in cells of eight bytes. -/
def clearBss (bssStop x0 : Nat) (mem : Nat → Nat) : Nat → Nat :=
  if x0 < bssStop then clearBss bssStop (x0 + 8) (Function.update mem x0 0) else mem
termination_by bssStop - x0

/-- The tables lie in `.bss`. -/
structure InBss (l : PgLayout) (bssStart bssStop : Nat) : Prop where
  aligned : 8 ∣ bssStart
  start : ∀ f : Frame Root, f.Valid l.pool → bssStart ≤ f.base l.root l.pool
  stop : ∀ f : Frame Root, f.Valid l.pool → f.base l.root l.pool + pageSize ≤ bssStop

/-! ## What the code relies on -/

/-- Every access to an address ends at this physical address, with such attributes. -/
def Mmu.Reaches (mem : Nat → Nat) (m : Mmu) (addr x : Nat) (p : Nat → Prop) : Prop :=
  (∃ o, m.Sees mem addr o) ∧ ∀ o, m.Sees mem addr o → ∃ attributes, o = some (x, attributes) ∧ p attributes

/-- The kernel runs, with physical address `x` of RAM at address `place x`: its
instructions are fetched, and its data read and written, there. -/
structure Mmu.Runs (mem : Nat → Nat) (k : KernelSymbols) (place : Nat → Nat) (m : Mmu) : Prop where
  fetch : ∀ x, k.text ≤ x → x < k.etext → m.Reaches mem (place x) x fun a =>
    Executable a .el1 ∧ ¬ Writable a .el0 ∧ (m.Enabled → m.WriteXorExecute → ¬ Writable a .el1)
  read : ∀ x, physOffset ≤ x → x < physOffset + ramSize → m.Reaches mem (place x) x fun a => m.Enabled → a &&& pteAf ≠ 0
  write : ∀ x, physOffset ≤ x → x < physOffset + ramSize → ¬(k.text ≤ x ∧ x < k.endRodata) →
    m.Reaches mem (place x) x fun a => Writable a .el1

/-- The address map with `low` in the lower half. -/
def regime (k : KernelSymbols) (low : Nat → Option (Nat × Nat)) (addr : Nat) : Option (Nat × Nat) :=
  if addr < 2 ^ 39 then low addr else if 2 ^ 64 - 2 ^ 39 ≤ addr ∧ addr < 2 ^ 64 then swapperMap k addr else none

/-! ## Assertions -/

section
variable {mem : Nat → Nat} {m m' : Mmu} {r : TransReg} {p : Nat → Prop} {v : Nat}

/-- A register has this property, as it is written and as it is seen. -/
def Mmu.Settled (r : TransReg) (p : Nat → Prop) (m : Mmu) : Prop := p (m.live r) ∧ p (m.written r)

/-- What the TLB holds of some addresses is what the map says. -/
def Mmu.Cached (S : Set Nat) (f : Nat → Option (Nat × Nat)) (m : Mmu) : Prop :=
  ∀ addr ∈ S, ∀ t, m.tlb addr = some t → f addr = some t

/-- Nothing is held. -/
def Mmu.Flushed (m : Mmu) : Prop := ∀ addr, m.tlb addr = none

theorem settled_stable : Stable (Drift mem) (Mmu.Settled r p) := by
  intro m m' drift both
  obtain ⟨live, written⟩ := both
  cases drift with
  | settle r' =>
    refine ⟨?_, written⟩
    show p (Function.update m.live r' (m.written r') r)
    by_cases same : r = r'
    · rwa [same, Function.update_self, ← same]
    · rwa [Function.update_of_ne same]
  | fill on walked => exact ⟨live, written⟩
  | evict addr => exact ⟨live, written⟩

theorem written_stable : Stable (Drift mem) fun m => p (m.written r) := by
  intro m m' drift written
  cases drift <;> exact written

theorem flushing_stable : Stable (Drift mem) fun m => m.flushing = true := by
  intro m m' drift flushing
  cases drift <;> exact flushing

/-- With the MMU off nothing is filled. -/
theorem flushed_stable : Stable (Drift mem) fun m => m.Settled .sctlr (· &&& 1 = 0) ∧ m.Flushed := by
  intro m m' drift both
  obtain ⟨off, empty⟩ := both
  refine ⟨settled_stable drift off, ?_⟩
  cases drift with
  | settle r' => exact empty
  | fill on walked => exact absurd (on.symm.trans off.1) (by decide)
  | evict addr =>
    intro a
    by_cases same : a = addr
    · subst same
      exact Function.update_self a _ m.tlb
    · exact (Function.update_of_ne same _ m.tlb).trans (empty a)

/-- The TLB keeps to the map, if every walk does. -/
theorem cached_stable {S : Set Nat} {f : Nat → Option (Nat × Nat)} {P : Mmu → Prop} (stable : Stable (Drift mem) P)
    (walks : ∀ m, P m → ∀ addr ∈ S, walk mem m.live addr = f addr) :
    Stable (Drift mem) fun m => P m ∧ m.Cached S f := by
  intro m m' drift both
  obtain ⟨holds, cached⟩ := both
  refine ⟨stable drift holds, ?_⟩
  cases drift with
  | settle r' => exact cached
  | @fill a t on walked =>
    intro addr inside u held
    by_cases same : addr = a
    · subst same
      rw [← walks m holds addr inside, walked]
      exact (Function.update_self addr _ m.tlb).symm.trans held
    · exact cached addr inside u ((Function.update_of_ne same _ m.tlb).symm.trans held)
  | evict a =>
    intro addr inside u held
    by_cases same : addr = a
    · subst same
      cases (Function.update_self addr _ m.tlb).symm.trans held
    · exact cached addr inside u ((Function.update_of_ne same _ m.tlb).symm.trans held)

end

/-! ## The address maps of the kernel -/

section
variable {l : PgLayout} {k : KernelSymbols} {st st' : PgState} {tables : List (Table Root)} {m : Mmu}

/-- The lower half with `idmap_pg_dir` or `user_pg_dir` in `TTBR0_EL1`. -/
def lowMap (k : KernelSymbols) : Root → Nat → Option (Nat × Nat)
  | .user => userMap
  | _ => idMap k

/-- The physical addresses of the maps are below 4 GiB. -/
theorem swapperMap_small {addr : Nat} {t : Nat × Nat} (maps : swapperMap k addr = some t) : t.1 < 2 ^ 32 := by
  unfold swapperMap InDevice at maps
  simp only [pageOffset, physOffset, ramSize, ioOffset, pageSize] at maps
  split at maps
  · obtain rfl := Option.some_inj.1 maps
    dsimp only
    omega
  split at maps
  · obtain rfl := Option.some_inj.1 maps
    dsimp only
    omega
  · cases maps

theorem lowMap_small {r : Root} {addr : Nat} {t : Nat × Nat} (maps : lowMap k r addr = some t) : t.1 < 2 ^ 32 := by
  have idSmall : idMap k addr = some t → t.1 < 2 ^ 32 := by
    intro maps
    unfold idMap at maps
    simp only [physOffset, ramSize] at maps
    split at maps
    · obtain rfl := Option.some_inj.1 maps
      dsimp only
      omega
    · cases maps
  cases r with
  | user =>
    rw [lowMap, userMap] at maps
    split at maps
    · next inside =>
      obtain ⟨i, lt, low, high⟩ := inside
      obtain rfl := Option.some_inj.1 maps
      simp only [appCount, appFirst, appSlotSize, appImageSize] at lt high
      dsimp only
      omega
    split at maps
    · next inside =>
      obtain ⟨i, lt, low, high⟩ := inside
      obtain rfl := Option.some_inj.1 maps
      simp only [appCount, appFirst, appSlotSize] at lt high
      dsimp only
      omega
    · cases maps
  | swapper => exact idSmall maps
  | idmap => exact idSmall maps

theorem filter_small {o : Option (Nat × Nat)} {bits : Nat} (small : ∀ t, o = some t → t.1 < 2 ^ bits) :
    o.filter (fun t => t.1 < 2 ^ bits) = o := by
  cases o with
  | none => rfl
  | some t => exact if_pos (decide_eq_true (small t rfl))

/-- The upper half is walked through `swapper_pg_dir`. -/
theorem AfterInit.walk_upper {registers : TransReg → Nat} {addr : Nat} (after : AfterInit l k st st' tables)
    (h : Placed l.root l.pool) (linked : k.Linked) (tcr : registers .tcr = tcrValue)
    (ttbr1 : registers .ttbr1 = l.swapperPgDir) (half : 2 ^ 64 - 2 ^ 39 ≤ addr) (word : addr < 2 ^ 64) :
    walk st'.mem registers addr = swapperMap k addr := by
  have lower : ¬ Lower tcrValue addr := fun lower => absurd lower.2.2.2 (by omega)
  have upper : Upper tcrValue addr := ⟨by decide, by decide, by decide, half, word⟩
  have base : l.swapperPgDir &&& pteAddrMask = l.swapperPgDir := and_mask (h.rootAligned .swapper) (h.rootBelow .swapper)
  unfold walk
  rw [tcr, ttbr1, if_neg lower, if_pos upper, base, after.swapper h linked half word]
  exact @filter_small _ 32 fun t => swapperMap_small

/-- The lower half is walked through the root in `TTBR0_EL1`. -/
theorem AfterInit.walk_lower {registers : TransReg → Nat} {addr : Nat} {r : Root} (after : AfterInit l k st st' tables)
    (h : Placed l.root l.pool) (linked : k.Linked) (own : r ≠ .swapper) (tcr : registers .tcr = tcrValue)
    (ttbr0 : registers .ttbr0 = l.root r) (half : addr < 2 ^ 39) : walk st'.mem registers addr = lowMap k r addr := by
  have lower : Lower tcrValue addr := ⟨by decide, by decide, by decide, half⟩
  have base : l.root r &&& pteAddrMask = l.root r := and_mask (h.rootAligned r) (h.rootBelow r)
  have maps : translate st'.mem (l.root r) addr = lowMap k r addr := by
    cases r with
    | swapper => exact absurd rfl own
    | idmap => exact after.idmap h linked half
    | user => exact after.user h half
  unfold walk
  rw [tcr, ttbr0, if_pos lower, base, maps]
  exact @filter_small _ 32 fun t => lowMap_small

/-- The registers are set for a root in the lower half. -/
def Ready (l : PgLayout) (r : Root) (m : Mmu) : Prop :=
  m.Settled .tcr (· = tcrValue) ∧ m.Settled .ttbr1 (· = l.swapperPgDir) ∧ m.Settled .ttbr0 (· = l.root r)

theorem ready_stable {mem : Nat → Nat} {r : Root} : Stable (Drift mem) (Ready l r) :=
  settled_stable.and (settled_stable.and settled_stable)

theorem AfterInit.walk_regime {addr : Nat} {r : Root} (after : AfterInit l k st st' tables) (h : Placed l.root l.pool)
    (linked : k.Linked) (own : r ≠ .swapper) (ready : Ready l r m) :
    walk st'.mem m.live addr = regime k (lowMap k r) addr := by
  unfold regime
  by_cases low : addr < 2 ^ 39
  · rw [if_pos low]
    exact after.walk_lower h linked own ready.1.1 ready.2.2.1 low
  rw [if_neg low]
  by_cases high : 2 ^ 64 - 2 ^ 39 ≤ addr ∧ addr < 2 ^ 64
  · rw [if_pos high]
    exact after.walk_upper h linked ready.1.1 ready.2.1.1 high.1 high.2
  · rw [if_neg high, walk, ready.1.1, if_neg fun lower => low lower.2.2.2,
      if_neg fun upper => high ⟨upper.2.2.2.1, upper.2.2.2.2⟩]
    rfl

/-- With the MMU on, and the TLB keeping to the map of the walk. -/
theorem sees_iff {mem : Nat → Nat} {addr : Nat} {f : Nat → Option (Nat × Nat)} {o : Option (Nat × Nat)} (on : m.Enabled)
    (walked : walk mem m.live addr = f addr) (cached : ∀ t, m.tlb addr = some t → f addr = some t) :
    m.Sees mem addr o ↔ o = f addr := by
  constructor
  · intro sees
    cases sees with
    | flat off => exact absurd on off
    | walk _ => exact walked
    | cached _ held => exact (cached _ held).symm
  · intro same
    rw [same, ← walked]
    exact .walk on

theorem sees_flat {mem : Nat → Nat} {addr : Nat} {o : Option (Nat × Nat)} (off : ¬ m.Enabled) :
    m.Sees mem addr o ↔ o = some (addr, 0) := by
  constructor
  · intro sees
    cases sees with
    | flat _ => rfl
    | walk on => exact absurd on off
    | cached on _ => exact absurd on off
  · intro same
    rw [same]
    exact .flat off

theorem Mmu.Reaches.of_sees {mem : Nat → Nat} {addr x a : Nat} {p : Nat → Prop}
    (sees : ∀ o, m.Sees mem addr o ↔ o = some (x, a)) (holds : p a) : m.Reaches mem addr x p :=
  ⟨⟨_, (sees _).2 rfl⟩, fun o seen => ⟨a, (sees o).1 seen, holds⟩⟩

/-- Without translation everything is where it is. -/
theorem Mmu.Runs.flat {mem : Nat → Nat} (off : ¬ m.Enabled) : m.Runs mem k id where
  fetch x _ _ := .of_sees (fun _ => sees_flat off) ⟨by decide, by decide, fun on => absurd on off⟩
  read x _ _ := .of_sees (fun _ => sees_flat off) fun on => absurd on off
  write x _ _ _ := .of_sees (fun _ => sees_flat off) (by decide)

/-- The permissions of the linear map are those the kernel needs. -/
theorem Mmu.Runs.linear {mem : Nat → Nat} {place : Nat → Nat} (linked : k.Linked)
    (sees : ∀ x, physOffset ≤ x → x < physOffset + ramSize → ∀ o, m.Sees mem (place x) o ↔ o = some (x, linearProt k x)) :
    m.Runs mem k place where
  fetch x low high := by
    have inside : x < physOffset + ramSize := by
      have etext := linked.adjacent
      have endRodata := linked.endRodata
      have belowApps := linked.belowApps
      simp only [physOffset, ramSize, appFirst] at *
      omega
    refine .of_sees (sees x (le_trans linked.text low) inside) ?_
    rw [linearProt, if_pos ⟨low, high⟩]
    exact ⟨by decide, by decide, fun _ _ => by decide⟩
  read x low high := by
    refine .of_sees (sees x low high) fun _ => ?_
    unfold linearProt
    split_ifs <;> decide
  write x low high outside := by
    have adjacent := linked.adjacent
    have etext := linked.etext
    have endRodata := linked.endRodata
    refine .of_sees (sees x low high) ?_
    rw [linearProt, if_neg fun inside => outside ⟨inside.1, by omega⟩, if_neg fun inside => outside ⟨by omega, inside.2⟩]
    decide

end

/-! ## The cleared tables -/

section
variable {l : PgLayout} {bssStart bssStop x0 a : Nat} {mem : Nat → Nat}

/-- The cells behind `x0` are cleared, and no other. -/
theorem clearBss_spec (bssStop x0 : Nat) (mem : Nat → Nat) (a : Nat) :
    clearBss bssStop x0 mem a = if x0 ≤ a ∧ a < bssStop ∧ 8 ∣ a - x0 then 0 else mem a := by
  fun_induction clearBss bssStop x0 mem with
  | case1 x0 mem more ih =>
    rw [ih]
    by_cases here : a = x0
    · subst here
      rw [if_neg (by omega), if_pos (by omega), Function.update_self]
    · rw [Function.update_of_ne here]
      congr 1
      rw [eq_iff_iff]
      omega
  | case2 x0 mem done =>
    rw [if_neg]
    omega

/-- The tables are clear, and so is the counter of the pool, whatever memory held. -/
theorem InBss.cleared (inBss : InBss l bssStart bssStop) (h : Placed l.root l.pool) (mem : Nat → Nat) :
    Cleared l ⟨clearBss bssStop bssStart mem, 0⟩ := by
  refine ⟨rfl, fun f valid i lt => ?_⟩
  have start := inBss.start f valid
  have stop := inBss.stop f valid
  have aligned : pageSize ∣ f.base l.root l.pool := by
    cases f with
    | root r => exact h.rootAligned r
    | table t => exact Nat.dvd_add h.poolAligned (Nat.dvd_mul_right _ _)
  have cell := inBss.aligned
  show clearBss bssStop bssStart mem (f.base l.root l.pool + 8 * i) = 0
  rw [clearBss_spec, if_pos]
  simp only [pageSize] at stop aligned
  omega

end

/-! ## The outline of the code -/

section
variable {l : PgLayout} {k : KernelSymbols} {st st' : PgState} {tables : List (Table Root)}

/-- The MMU is off, and no write turns it on. -/
abbrev Off : Mmu → Prop := Mmu.Settled .sctlr (· &&& 1 = 0)

/-- It is on, and no write turns it off. -/
abbrev On : Mmu → Prop := Mmu.Settled .sctlr (· &&& 1 = 1)

section
variable {m : Mmu} {r r' : TransReg} {p : Nat → Prop} {v bits set : Nat}

theorem Mmu.Settled.msr (settled : m.Settled r p) (other : r ≠ r') : (m.exec (.msr r' v)).Settled r p := by
  refine ⟨settled.1, ?_⟩
  show p (Function.update m.written r' v r)
  rw [Function.update_of_ne other]
  exact settled.2

theorem Mmu.Settled.update (settled : m.Settled r p) (other : r ≠ r') : (m.exec (.update r' bits set)).Settled r p :=
  settled.msr other

theorem Mmu.Settled.isb (written : p (m.written r)) : (m.exec .isb).Settled r p := ⟨written, written⟩

theorem Mmu.exec_dsb : m.exec .dsb = if m.flushing then { m with tlb := fun _ => none, flushing := false } else m := rfl

theorem Mmu.written_msr : (m.exec (.msr r v)).written r = v := by
  show Function.update m.written r v r = v
  exact Function.update_self ..

theorem Mmu.Settled.dsb (settled : m.Settled r p) : (m.exec .dsb).Settled r p := by
  rw [Mmu.exec_dsb]
  split <;> exact settled

theorem Mmu.Flushed.dsb (flushing : m.flushing = true) : (m.exec .dsb).Flushed := by
  rw [Mmu.exec_dsb, if_pos flushing]
  exact fun addr => rfl

theorem Mmu.Flushed.cached {S : Set Nat} {f : Nat → Option (Nat × Nat)} (flushed : m.Flushed) : m.Cached S f := by
  intro addr _ t held
  rw [flushed addr] at held
  cases held

theorem Ready.dsb {root : Root} (ready : Ready l root m) : Ready l root (m.exec .dsb) :=
  ⟨ready.1.dsb, ready.2.1.dsb, ready.2.2.dsb⟩

theorem Ready.isb {root : Root} (ready : Ready l root m) : Ready l root (m.exec .isb) :=
  ⟨.isb ready.1.2, .isb ready.2.1.2, .isb ready.2.2.2⟩

/-- Writes to `SCTLR_EL1` leave the tables. -/
theorem Ready.update {root : Root} (ready : Ready l root m) : Ready l root (m.exec (.update .sctlr bits set)) :=
  ⟨ready.1.update (by decide), ready.2.1.update (by decide), ready.2.2.update (by decide)⟩

/-- Bits that are cleared do not turn the MMU on. -/
theorem Off.update (off : Off m) : Off (m.exec (.update .sctlr bits 0)) := by
  refine ⟨off.1, ?_⟩
  show Function.update m.written .sctlr ((m.written .sctlr &&& not64 bits) ||| 0) .sctlr &&& 1 = 0
  have zero : m.written .sctlr &&& 1 = 0 := off.2
  rw [Function.update_self, Nat.or_zero, Nat.and_right_comm, zero, Nat.zero_and]

/-- The last write of `mmu_init` does. -/
theorem turns_on : (m.exec (.update .sctlr bits 1)).written .sctlr &&& 1 = 1 := by
  show Function.update m.written .sctlr ((m.written .sctlr &&& not64 bits) ||| 1) .sctlr &&& 1 = 1
  rw [Function.update_self, Nat.and_or_distrib_right, Nat.and_one_is_mod]
  rcases Nat.mod_two_eq_zero_or_one (m.written .sctlr &&& not64 bits) with even | odd
  · rw [even]
    rfl
  · rw [odd]
    rfl

end

/-- The MMU translates with a root in the lower half, and the TLB keeps to that. -/
abbrev Translating (l : PgLayout) (k : KernelSymbols) (r : Root) (m : Mmu) : Prop :=
  (On m ∧ Ready l r m) ∧ m.Cached Set.univ (regime k (lowMap k r))

/-- The addresses of the upper half. -/
def upperHalf : Set Nat := {addr | 2 ^ 64 - 2 ^ 39 ≤ addr ∧ addr < 2 ^ 64}

/-- The MMU translates the upper half, and there the TLB keeps to that. -/
abbrev TranslatingUpper (l : PgLayout) (k : KernelSymbols) (m : Mmu) : Prop :=
  (On m ∧ m.Settled .tcr (· = tcrValue) ∧ m.Settled .ttbr1 (· = l.swapperPgDir)) ∧ m.Cached upperHalf (swapperMap k)

theorem Off.not_enabled {m : Mmu} (off : Off m) : ¬ m.Enabled := fun on => absurd (on.symm.trans off.1) (by decide)

/-- Up to `mmu_init` and through it, the code runs at physical addresses, whether a
write has turned the MMU on already or not. -/
theorem lowCode_outline (after : AfterInit l k st st' tables) (h : Placed l.root l.pool) (linked : k.Linked) :
    Outline (Drift st'.mem) Mmu.exec (Mmu.Runs st'.mem k id) Off (lowCode l) (Translating l k .idmap) := by
  have flat : ∀ {m : Mmu}, Off m → m.Runs st'.mem k id := fun off => .flat off.not_enabled
  have off : Stable (Drift st'.mem) Off := settled_stable
  -- the registers as they are written, one after the other
  have tcr := @written_stable st'.mem .tcr (· = tcrValue)
  have ttbr0 := @written_stable st'.mem .ttbr0 (· = l.root .idmap)
  have ttbr1 := @written_stable st'.mem .ttbr1 (· = l.swapperPgDir)
  have ready : Stable (Drift st'.mem) fun m => Off m ∧ Ready l .idmap m := off.and ready_stable
  have flushed : Stable (Drift st'.mem) fun m => Ready l .idmap m ∧ Off m ∧ m.Flushed := ready_stable.and flushed_stable
  -- the write to `SCTLR_EL1` may have been seen or not
  have turning : Stable (Drift st'.mem) fun m => (m.written .sctlr &&& 1 = 1 ∧ Ready l .idmap m) ∧
      m.Cached Set.univ (regime k (lowMap k .idmap)) :=
    cached_stable ((@written_stable st'.mem .sctlr (· &&& 1 = 1)).and ready_stable) fun m both addr _ =>
      after.walk_regime h linked (by decide) both.2
  have on : Stable (Drift st'.mem) (Translating l k .idmap) :=
    cached_stable (settled_stable.and ready_stable) fun m both addr _ => after.walk_regime h linked (by decide) both.2
  have identity : ∀ {m : Mmu}, Ready l .idmap m → m.Cached Set.univ (regime k (lowMap k .idmap)) → m.Runs st'.mem k id := by
    intro m ready cached
    by_cases enabled : m.Enabled
    · refine .linear linked fun x low high o => ?_
      have half : x < 2 ^ 39 := by
        simp only [physOffset, ramSize] at high
        omega
      have map : regime k (lowMap k .idmap) x = some (x, linearProt k x) := by
        rw [regime, if_pos half]
        exact if_pos ⟨low, high⟩
      rw [← map]
      exact sees_iff enabled (after.walk_regime h linked (by decide) ready) fun t => cached x trivial t
    · exact .flat enabled
  -- `_start`
  refine .cons (Q := Off) off flat (fun here => Off.update here) ?_
  refine .cons (Q := Off) off flat (fun here => .isb here.2) ?_
  refine .cons (Q := Off) off flat (fun here => here) ?_
  -- `mmu_init`
  refine .cons (Q := Off) off flat (fun here => here.dsb) ?_
  refine .cons (Q := Off) off flat (fun here => here.msr (by decide)) ?_
  refine .cons (Q := fun m => Off m ∧ m.written .tcr = tcrValue) off flat
    (fun here => ⟨here.msr (by decide), Mmu.written_msr⟩) ?_
  refine .cons (Q := fun m => Off m ∧ m.written .tcr = tcrValue ∧ m.written .ttbr0 = l.root .idmap) (off.and tcr)
    (fun here => flat here.1) (fun here => ⟨here.1.msr (by decide), here.2, Mmu.written_msr⟩) ?_
  refine .cons (Q := fun m => Off m ∧ m.written .tcr = tcrValue ∧ m.written .ttbr0 = l.root .idmap ∧
      m.written .ttbr1 = l.swapperPgDir) (off.and (tcr.and ttbr0)) (fun here => flat here.1)
    (fun here => ⟨here.1.msr (by decide), here.2.1, here.2.2, Mmu.written_msr⟩) ?_
  refine .cons (Q := fun m => Off m ∧ Ready l .idmap m) (off.and (tcr.and (ttbr0.and ttbr1))) (fun here => flat here.1)
    (fun here => ⟨.isb here.1.2, .isb here.2.1, .isb here.2.2.2, .isb here.2.2.1⟩) ?_
  refine .cons (Q := fun m => (Off m ∧ Ready l .idmap m) ∧ m.flushing = true) ready (fun here => flat here.1)
    (fun here => ⟨here, rfl⟩) ?_
  refine .cons (Q := fun m => Ready l .idmap m ∧ Off m ∧ m.Flushed) (ready.and flushing_stable) (fun here => flat here.1.1)
    (fun here => ⟨here.1.2.dsb, here.1.1.dsb, .dsb here.2⟩) ?_
  refine .cons (Q := fun m => Ready l .idmap m ∧ Off m ∧ m.Flushed) flushed (fun here => flat here.2.1)
    (fun here => ⟨here.1.isb, .isb here.2.1.2, here.2.2⟩) ?_
  refine .cons (Q := fun m => (m.written .sctlr &&& 1 = 1 ∧ Ready l .idmap m) ∧
      m.Cached Set.univ (regime k (lowMap k .idmap))) flushed (fun here => flat here.2.1)
    (fun here => ⟨⟨turns_on, here.1.update⟩, here.2.2.cached⟩) ?_
  refine .cons (Q := Translating l k .idmap) turning (fun here => identity here.1.2 here.2)
    (fun here => ⟨⟨.isb here.1.1, here.1.2.isb⟩, here.2⟩) ?_
  exact .cons on (fun here => identity here.1.2 here.2) (fun here => here) (.nil on)

/-- The linear map of RAM. -/
theorem va_linear {x : Nat} (low : physOffset ≤ x) (high : x < physOffset + ramSize) :
    va x ∈ upperHalf ∧ swapperMap k (va x) = some (x, linearProt k x) := by
  have place : va x = pageOffset + (x - physOffset) := by
    simp only [physOffset, ramSize] at low high
    simp only [va, add64, sub64, physOffset, pageOffset]
    omega
  simp only [physOffset, ramSize] at low high
  have back : physOffset + (va x - pageOffset) = x := by
    rw [place]
    simp only [physOffset, pageOffset]
    omega
  constructor
  · show 2 ^ 64 - 2 ^ 39 ≤ va x ∧ va x < 2 ^ 64
    rw [place]
    simp only [physOffset, pageOffset]
    omega
  · rw [swapperMap, back]
    refine if_pos ?_
    rw [place]
    simp only [physOffset, pageOffset, ramSize]
    omega

/-- In the linear map the code does not depend on the lower half, in which entries of
`idmap_pg_dir` may be left. -/
theorem highCode_outline (after : AfterInit l k st st' tables) (h : Placed l.root l.pool) (linked : k.Linked) :
    Outline (Drift st'.mem) Mmu.exec (Mmu.Runs st'.mem k va) (Translating l k .idmap) (highCode l)
      (Translating l k .user) := by
  have whole : ∀ r : Root, r ≠ .swapper → Stable (Drift st'.mem) (Translating l k r) := fun r own =>
    cached_stable (settled_stable.and ready_stable) fun m both addr _ => after.walk_regime h linked own both.2
  have walks : ∀ m : Mmu, (On m ∧ m.Settled .tcr (· = tcrValue) ∧ m.Settled .ttbr1 (· = l.swapperPgDir)) →
      ∀ addr ∈ upperHalf, walk st'.mem m.live addr = swapperMap k addr := fun m both addr inside =>
    after.walk_upper h linked both.2.1.1 both.2.2.1 inside.1 inside.2
  have upper : Stable (Drift st'.mem) (TranslatingUpper l k) :=
    cached_stable (settled_stable.and (settled_stable.and settled_stable)) walks
  have ttbr0 := @written_stable st'.mem .ttbr0 (· = l.root .user)
  have ready := @ready_stable l st'.mem .user
  have linear : ∀ {m : Mmu}, TranslatingUpper l k m → m.Runs st'.mem k va := by
    intro m set
    refine .linear linked fun x low high o => ?_
    obtain ⟨inside, map⟩ := @va_linear k x low high
    rw [← map]
    exact sees_iff set.1.1.1 (walks m set.1 _ inside) fun t => set.2 _ inside t
  have narrow : ∀ {m : Mmu} {r : Root}, Translating l k r m → TranslatingUpper l k m := by
    intro m r whole
    refine ⟨⟨whole.1.1, whole.1.2.1, whole.1.2.2.1⟩, fun addr inside t held => ?_⟩
    have map := whole.2 addr trivial t held
    have low : ¬ addr < 2 ^ 39 := by
      have here := inside.1
      omega
    rwa [regime, if_neg low, if_pos (show 2 ^ 64 - 2 ^ 39 ≤ addr ∧ addr < 2 ^ 64 from inside)] at map
  -- `__mmap_switched`
  have idle : Stable (Drift st'.mem) (Translating l k .idmap) := whole .idmap (by decide)
  refine .cons (Q := Translating l k .idmap) idle (fun here => linear (narrow here)) (fun here => here) ?_
  refine .cons (Q := Translating l k .idmap) idle (fun here => linear (narrow here))
    (fun here => ⟨⟨.isb here.1.1.2, here.1.2.isb⟩, here.2⟩) ?_
  refine .cons (Q := Translating l k .idmap) idle (fun here => linear (narrow here)) (fun here => here) ?_
  -- `cpu_uninstall_idmap`
  refine .cons (Q := fun m => TranslatingUpper l k m ∧ m.written .ttbr0 = l.root .user) idle
    (fun here => linear (narrow here)) (fun here => ?_) ?_
  · obtain ⟨⟨on, tcr, ttbr1⟩, cached⟩ := narrow here
    exact ⟨⟨⟨on.msr (by decide), tcr.msr (by decide), ttbr1.msr (by decide)⟩, cached⟩, Mmu.written_msr⟩
  refine .cons (Q := fun m => TranslatingUpper l k m ∧ Ready l .user m) (upper.and ttbr0) (fun here => linear here.1)
    (fun here => ?_) ?_
  · obtain ⟨⟨⟨on, tcr, ttbr1⟩, cached⟩, written⟩ := here
    exact ⟨⟨⟨.isb on.2, .isb tcr.2, .isb ttbr1.2⟩, cached⟩, .isb tcr.2, .isb ttbr1.2, .isb written⟩
  refine .cons (Q := fun m => (TranslatingUpper l k m ∧ Ready l .user m) ∧ m.flushing = true) (upper.and ready)
    (fun here => linear here.1) (fun here => ⟨here, rfl⟩) ?_
  -- only now the lower half is that of the applications
  refine .cons (Q := Translating l k .user) ((upper.and ready).and flushing_stable) (fun here => linear here.1.1)
    (fun here => ⟨⟨here.1.1.1.1.dsb, here.1.2.dsb⟩, (Mmu.Flushed.dsb here.2).cached⟩) ?_
  have user : Stable (Drift st'.mem) (Translating l k .user) := whole .user (by decide)
  refine .cons (Q := Translating l k .user) user (fun here => linear (narrow here))
    (fun here => ⟨⟨.isb here.1.1.2, here.1.2.isb⟩, here.2⟩) ?_
  exact .cons user (fun here => linear (narrow here)) (fun here => here) (.nil user)

/-- **The switch.** Whatever memory holds, after `clear_bss` the tables are built. With
them in memory, from a processor with its MMU off and any contents of its TLB and of its
other registers, and whatever it makes of the register writes and of its TLB in
between: before every instruction the kernel finds its code, its stack and its data, at
physical addresses up to the jump and in the linear map from then on; and at the end
every address is seen as `swapper_pg_dir` and `user_pg_dir` map it, with nothing of the
identity map left. -/
theorem switch_seamless {bssStart bssStop : Nat} (h : Placed l.root l.pool) (linked : k.Linked)
    (inBss : InBss l bssStart bssStop) (mem : Nat → Nat) :
    ∃ st', mmuInit l k ⟨clearBss bssStop bssStart mem, 0⟩ = some st' ∧ ∀ start : Mmu, start.live .sctlr &&& 1 = 0 → start.written .sctlr &&& 1 = 0 →
      (∀ before op rest m, lowCode l = before ++ op :: rest → Switches st'.mem before start m → m.Runs st'.mem k id) ∧
      (∀ before op rest m, highCode l = before ++ op :: rest → Switches st'.mem (lowCode l ++ before) start m →
        m.Runs st'.mem k va) ∧
      ∀ m, Switches st'.mem (lowCode l ++ highCode l) start m → ∀ addr o,
        m.Sees st'.mem addr o ↔ o = regime k userMap addr := by
  obtain ⟨st₁, tables, run, sub, rep⟩ := mmuInit_spec h linked (inBss.cleared h mem)
  have after : AfterInit l k st₁ _ tables := ⟨rep, sub, rfl⟩
  refine ⟨_, run, fun start off unwritten => ⟨?_, ?_, ?_⟩⟩
  · intro before op rest m split run
    have outline := lowCode_outline after h linked
    rw [split] at outline
    exact outline.point run ⟨off, unwritten⟩
  · intro before op rest m split run
    obtain ⟨m₁, first, second⟩ := run.split
    have outline := highCode_outline after h linked
    rw [split] at outline
    exact outline.point second ((lowCode_outline after h linked).post first ⟨off, unwritten⟩)
  · intro m run addr o
    obtain ⟨m₁, first, second⟩ := run.split
    obtain ⟨⟨on, ready⟩, cached⟩ := (highCode_outline after h linked).post second
      ((lowCode_outline after h linked).post first ⟨off, unwritten⟩)
    exact sees_iff on.1 (after.walk_regime h linked (by decide) ready) fun t => cached addr trivial t

theorem exampleLayout_inBss : InBss exampleLayout 0x40090000 0x400e0000 := by
  refine ⟨by decide, fun f valid => ?_, fun f valid => ?_⟩
  · cases f with
    | root r => cases r <;> decide
    | table t => exact Nat.le_trans (show 0x40090000 ≤ 0x40093000 by decide) (Nat.le_add_right _ _)
  · cases f with
    | root r => cases r <;> decide
    | table t =>
      have few : t < 70 := valid
      show 0x40093000 + 4096 * t + 4096 ≤ 0x400e0000
      omega

/-- From memory and a TLB that are full of other things, nothing of the identity map is
left. -/
theorem switch_seamless_example : ∃ st',
    mmuInit exampleLayout exampleSymbols ⟨clearBss 0x400e0000 0x40090000 fun _ => 0x2a, 0⟩ = some st' ∧
    ∃ m : Mmu, Switches st'.mem (lowCode exampleLayout ++ highCode exampleLayout)
      ⟨fun _ => 0, fun _ => 0, fun _ => some (0, 0), false⟩ m ∧ ¬ m.Sees st'.mem 0x40080000 (some (0x40080000, 0)) := by
  obtain ⟨st', run, switch⟩ := switch_seamless exampleLayout_placed exampleSymbols_linked exampleLayout_inBss fun _ => 0x2a
  obtain ⟨-, -, map⟩ := switch ⟨fun _ => 0, fun _ => 0, fun _ => some (0, 0), false⟩ rfl rfl
  have runs : ∀ (ops : List SwitchOp) (m : Mmu), ∃ m', Switches st'.mem ops m m' := by
    intro ops m
    induction ops using List.reverseRecOn with
    | nil => exact ⟨m, .refl⟩
    | append_singleton ops o ih =>
      obtain ⟨m', before⟩ := ih
      exact ⟨_, before.own⟩
  obtain ⟨m, all⟩ := runs (lowCode exampleLayout ++ highCode exampleLayout) ⟨fun _ => 0, fun _ => 0, fun _ => some (0, 0), false⟩
  refine ⟨st', run, m, all, fun sees => ?_⟩
  have seen := (map m all _ _).1 sees
  exact absurd seen (by decide)

end

end MiaowOs
