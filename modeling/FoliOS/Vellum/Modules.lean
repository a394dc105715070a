import FoliOS.Lib.SList

/-!
# Vellum — the list of loaded modules (`module/module.c`)

A module that was loaded is linked in at the end of a singly linked list. To unload one,
`VlModule_Unload` looks for the module in front of it. The first module of the list has none, and
the call returns without having done anything.

Of `VlModule_Load` this is the end, where it has the module and returns success. What the functions
of a module do is left out, and so are its name and the closing of its file.

* `modules_iff` — list and clean-up are exact after every call of a history exactly if none of the
  calls unloads the module loaded first of those still loaded.
-/

namespace FoliOS.Vellum.Modules

open Function Lib

/-! ## The calls -/

abbrev Addr := Nat

/-- `PAGE_SIZE` -/
def pageSize : UInt32 := 4096

/-- What `VlModule_Unload` reads of a `struct module` besides the link. -/
structure Module where
  elf         : Nat
  loadVpn     : UInt32
  programSize : UInt32

/-- The open ELF files, with the address and size of `.fini_array` if `VlElf_FindSection` and
`VlElf_GetSectionHeader` give it; and the memory, by pointers. -/
structure Images where
  finiArray : Nat → Option (UInt32 × UInt32)
  pointer   : UInt32 → UInt32

/-- `mod_list_head`, the modules and their links, the functions of `.fini_array` sections called so
far, and the arguments of the calls of `mm_free_pages`. -/
structure State where
  head   : Option Addr
  next   : Addr → Option Addr
  mods   : Addr → Module
  called : List UInt32
  freed  : List (UInt32 × UInt32)

/-- `run_func_array` of `.fini_array`: the functions it calls. -/
def runFuncArray (img : Images) (m : Module) : List UInt32 :=
  match img.finiArray m.elf with
  | none => []
  | some (address, size) => (List.range (size.toNat / 4)).map fun i =>
      img.pointer (m.loadVpn * pageSize + address + 4 * UInt32.ofNat i)

/-- The pages of a module: the first one, and `ALIGN_DIV` of the size. -/
def Module.pages (m : Module) : UInt32 × UInt32 :=
  (m.loadVpn, (m.programSize + pageSize - 1) / pageSize)

/-- The loop of `VlModule_Load` to the last module. -/
def lastModule (s : State) : Nat → Addr → Option Addr
  | 0, _ => none
  | fuel + 1, current =>
    match s.next current with
    | none => some current
    | some next => lastModule s fuel next

/-- The end of `VlModule_Load`, for the module at `a`. -/
def vlModuleLoad (fuel : Nat) (s : State) (a : Addr) (m : Module) : Option State :=
  match s.head with
  | none => some { s with head := some a, next := update s.next a none, mods := update s.mods a m }
  | some c => (lastModule s fuel c).map fun c =>
      { s with next := update (update s.next c (some a)) a none, mods := update s.mods a m }

/-- The loop of `VlModule_Unload`. -/
def findPrev (s : State) (mod : Addr) : Nat → Addr → Option Addr → Option (Option Addr)
  | 0, _, _ => none
  | fuel + 1, current, prev =>
    match s.next current with
    | none => some prev
    | some next => findPrev s mod fuel next (if next = mod then some current else prev)

/-- `VlModule_Unload` -/
def vlModuleUnload (img : Images) (fuel : Nat) (s : State) (mod : Addr) : Option State :=
  match s.head with
  | none => some s
  | some c => (findPrev s mod fuel c none).map fun
    | none => s
    | some prev => { s with
        next   := update s.next prev (s.next mod)
        called := s.called ++ runFuncArray img (s.mods mod)
        freed  := s.freed ++ [(s.mods mod).pages] }

/-- A load that succeeds, with the module's address, or an unload. -/
inductive Call where
  | load (a : Addr) (m : Module)
  | unload (a : Addr)

def step (img : Images) (fuel : Nat) (s : State) : Call → Option State
  | .load a m => vlModuleLoad fuel s a m
  | .unload a => vlModuleUnload img fuel s a

/-! ## What the calls are for -/

/-- The modules that are loaded, in load order, and those that were unloaded, in that order. -/
structure Loaded where
  live : List Addr
  mods : Addr → Module
  gone : List Module

def Loaded.step (l : Loaded) : Call → Loaded
  | .load a m => ⟨l.live ++ [a], update l.mods a m, l.gone⟩
  | .unload a => ⟨l.live.erase a, l.mods, l.gone ++ [l.mods a]⟩

/-- A new module is not at the place of a loaded one, and only loaded modules are unloaded. -/
def Loaded.Allows (l : Loaded) : Call → Prop
  | .load a _ => a ∉ l.live
  | .unload a => a ∈ l.live

def Legal : Loaded → List Call → Prop
  | _, [] => True
  | l, c :: cs => l.Allows c ∧ Legal (l.step c) cs

/-- The list has the loaded modules in load order, and for each unloaded one, and no other, the
functions of `.fini_array` were called and the pages freed once. -/
structure Exact (img : Images) (l : Loaded) (s : State) : Prop where
  list   : Links s.next s.head l.live
  mods   : s.mods = l.mods
  called : s.called = l.gone.flatMap (runFuncArray img)
  freed  : s.freed = l.gone.map Module.pages

/-- Every call of a history returns and leaves the list exact. -/
def AlwaysExact (img : Images) (fuel : Nat) : Loaded → State → List Call → Prop
  | _, _, [] => True
  | l, s, c :: cs => ∃ s', step img fuel s c = some s' ∧ Exact img (l.step c) s' ∧
      AlwaysExact img fuel (l.step c) s' cs

/-- No call unloads the module loaded first of those still loaded. -/
def KeepsFirst : Loaded → List Call → Prop
  | _, [] => True
  | l, c :: cs => (∀ a, l.live.head? = some a → c ≠ .unload a) ∧ KeepsFirst (l.step c) cs

/-! ## One call -/

variable {img : Images} {fuel : Nat} {s : State} {a c : Addr} {prev : Option Addr}
  {k k1 k2 : List Addr} {l : Loaded} {m : Module} {call : Call}

theorem lastModule_eq (h : Links s.next (some c) (c :: k)) (hfuel : k.length < fuel) :
    lastModule s fuel c = some ((c :: k).getLast (List.cons_ne_nil c k)) := by
  induction k generalizing c fuel with
  | nil =>
    obtain ⟨n, rfl⟩ := Nat.exists_eq_add_one.mpr hfuel
    simp only [lastModule, show s.next c = none from h.2, List.getLast_singleton]
  | cons d k ih =>
    obtain ⟨n, rfl⟩ := Nat.exists_eq_add_one.mpr (Nat.zero_lt_of_lt hfuel)
    have hd := h.2.1
    simp only [lastModule, hd]
    exact ih (hd ▸ h.2) (Nat.lt_of_succ_lt_succ hfuel)

theorem findPrev_none (h : Links s.next (some c) (c :: k)) (ha : a ∉ k) (hfuel : k.length < fuel) :
    findPrev s a fuel c prev = some prev := by
  induction k generalizing c fuel with
  | nil =>
    obtain ⟨n, rfl⟩ := Nat.exists_eq_add_one.mpr hfuel
    simp only [findPrev, show s.next c = none from h.2]
  | cons d k ih =>
    obtain ⟨n, rfl⟩ := Nat.exists_eq_add_one.mpr (Nat.zero_lt_of_lt hfuel)
    have hd := h.2.1
    rw [List.mem_cons, not_or] at ha
    simp only [findPrev, hd, if_neg (Ne.symm ha.1)]
    exact ih (hd ▸ h.2) ha.2 (Nat.lt_of_succ_lt_succ hfuel)

/-- The loop goes on after it has found the module. -/
theorem findPrev_some (h : Links s.next (some c) (c :: (k1 ++ a :: k2))) (ha : a ∉ k2)
    (hfuel : (k1 ++ a :: k2).length < fuel) :
    findPrev s a fuel c prev = some (some ((c :: k1).getLast (List.cons_ne_nil c k1))) := by
  obtain ⟨n, rfl⟩ := Nat.exists_eq_add_one.mpr (Nat.zero_lt_of_lt hfuel)
  induction k1 generalizing c n prev with
  | nil =>
    have hd := h.2.1
    simp only [findPrev, hd, if_true]
    exact findPrev_none (hd ▸ h.2) ha (Nat.lt_of_succ_lt_succ hfuel)
  | cons d k1 ih =>
    have hd := h.2.1
    have hlt := Nat.lt_of_succ_lt_succ hfuel
    obtain ⟨n, rfl⟩ := Nat.exists_eq_add_one.mpr (Nat.zero_lt_of_lt hlt)
    rw [findPrev, hd]
    exact ih (hd ▸ h.2) n hlt

theorem load_exact (m : Module) (h : Exact img l s) (hnd : l.live.Nodup) (ha : a ∉ l.live)
    (hfuel : l.live.length ≤ fuel) :
    ∃ s', vlModuleLoad fuel s a m = some s' ∧ Exact img (l.step (.load a m)) s' := by
  have hlist := h.list
  have hmods : update s.mods a m = update l.mods a m := congrArg (update · a m) h.mods
  cases hlive : l.live with
  | nil =>
    rw [hlive] at hlist
    simp only [vlModuleLoad, show s.head = none from hlist]
    refine ⟨_, rfl, ?_, hmods, h.called, h.freed⟩
    simp [Loaded.step, hlive, Links]
  | cons c k =>
    rw [hlive] at hlist hnd ha hfuel
    have hhead : s.head = some c := hlist.1
    rw [hhead] at hlist
    simp only [vlModuleLoad, hhead, lastModule_eq hlist hfuel, Option.map_some]
    refine ⟨_, rfl, ?_, hmods, h.called, h.freed⟩
    have hcat := List.dropLast_append_getLast (List.cons_ne_nil c k)
    rw [← hcat] at hlist hnd ha
    have hpush := hlist.pushBack hnd ha
    rw [hcat] at hpush
    simpa only [Loaded.step, hlive] using hpush

theorem unload_exact (h : Exact img l s) (hnd : l.live.Nodup) (ha : a ∈ l.live)
    (hfuel : l.live.length ≤ fuel) (hfirst : l.live.head? ≠ some a) :
    ∃ s', vlModuleUnload img fuel s a = some s' ∧ Exact img (l.step (.unload a)) s' := by
  have hlist := h.list
  cases hlive : l.live with
  | nil => simp [hlive] at ha
  | cons c k =>
    rw [hlive] at hlist hnd ha hfuel hfirst
    have hhead : s.head = some c := hlist.1
    rw [hhead] at hlist
    have hca : c ≠ a := fun heq => hfirst (congrArg some heq)
    obtain ⟨k1, k2, rfl⟩ := List.append_of_mem (List.mem_of_ne_of_mem hca.symm ha)
    obtain ⟨-, hnd2, hdisj⟩ := List.nodup_append.mp (List.nodup_cons.mp hnd).2
    have ha1 : a ∉ k1 := fun hmem => hdisj a hmem a List.mem_cons_self rfl
    have ha2 : a ∉ k2 := (List.nodup_cons.mp hnd2).1
    simp only [vlModuleUnload, hhead, findPrev_some hlist ha2 hfuel, Option.map_some]
    refine ⟨_, rfl, ?_, h.mods, by simp [Loaded.step, h.called, h.mods],
      by simp [Loaded.step, h.freed, h.mods]⟩
    -- the link of the module in front now skips the one that was unloaded
    have hcat := List.dropLast_append_getLast (List.cons_ne_nil c k1)
    have hsplit : ∀ k, (c :: k1).dropLast ++ (c :: k1).getLast (List.cons_ne_nil c k1) :: k =
        c :: (k1 ++ k) := fun k => by
      rw [List.append_cons, hcat]
      rfl
    have herase : (l.step (.unload a)).live = c :: (k1 ++ k2) := by
      rw [Loaded.step, hlive, List.erase_cons_tail (by simpa using hca),
        List.erase_append_right _ ha1, List.erase_cons_head]
    rw [← hsplit] at hlist hnd
    rw [herase, ← hsplit]
    refine (hlist.unlink hnd).congr fun d hd => (update_of_ne ?_ _ _).symm
    rintro rfl
    simp_all

/-- The first module of the list stays. -/
theorem unload_first (h : Exact img l s) (hnd : l.live.Nodup) (hfuel : l.live.length ≤ fuel)
    (hfirst : l.live.head? = some a) :
    vlModuleUnload img fuel s a = some s ∧ ¬ Exact img (l.step (.unload a)) s := by
  constructor
  · obtain ⟨k, hk⟩ := List.head?_eq_some_iff.mp hfirst
    have hlist := h.list
    rw [hk] at hlist hnd hfuel
    have hhead : s.head = some a := hlist.1
    rw [hhead] at hlist
    simp only [vlModuleUnload, hhead, findPrev_none hlist (List.nodup_cons.mp hnd).1 hfuel,
      Option.map_some]
  · intro hexact
    have hsame : l.live.erase a = l.live := hexact.list.unique h.list
    exact hnd.not_mem_erase (hsame ▸ List.mem_of_mem_head? hfirst)

/-! ## Histories -/

theorem nodup_step (hnd : l.live.Nodup) (hallowed : l.Allows call) : (l.step call).live.Nodup := by
  cases call with
  | load a m => simpa [Loaded.step, List.concat_eq_append] using hnd.concat hallowed
  | unload a => exact hnd.erase a

theorem length_step (l : Loaded) (call : Call) : (l.step call).live.length ≤ l.live.length + 1 := by
  cases call with
  | load a m => simp [Loaded.step]
  | unload a => exact Nat.le_succ_of_le List.length_erase_le

theorem alwaysExact_iff (calls : List Call) (h : Exact img l s) (hnd : l.live.Nodup)
    (hlegal : Legal l calls) (hfuel : l.live.length + calls.length ≤ fuel) :
    AlwaysExact img fuel l s calls ↔ KeepsFirst l calls := by
  induction calls generalizing l s with
  | nil => exact Iff.rfl
  | cons call calls ih =>
    obtain ⟨hallowed, hlegal⟩ := hlegal
    have hlen : l.live.length ≤ fuel := by omega
    have hnext := length_step l call
    rw [List.length_cons] at hfuel
    have hrest : ∀ {s'}, Exact img (l.step call) s' →
        (AlwaysExact img fuel (l.step call) s' calls ↔ KeepsFirst (l.step call) calls) := fun hs' =>
      ih hs' (nodup_step hnd hallowed) hlegal (by omega)
    constructor
    · rintro ⟨s', hstep, hs', hcalls⟩
      refine ⟨?_, (hrest hs').mp hcalls⟩
      rintro a ha rfl
      obtain ⟨hsame, hno⟩ := unload_first h hnd hlen ha
      cases hsame.symm.trans hstep
      exact hno hs'
    · rintro ⟨hfirst, hkeeps⟩
      obtain ⟨s', hstep, hs'⟩ :
          ∃ s', step img fuel s call = some s' ∧ Exact img (l.step call) s' := by
        cases call with
        | load a m => exact load_exact m h hnd hallowed hlen
        | unload a => exact unload_exact h hnd hallowed hlen fun ha => hfirst a ha rfl
      exact ⟨s', hstep, hs', (hrest hs').mpr hkeeps⟩

/-- No module is loaded. -/
def start : State := ⟨none, fun _ => none, fun _ => ⟨0, 0, 0⟩, [], []⟩

def noneLoaded : Loaded := ⟨[], fun _ => ⟨0, 0, 0⟩, []⟩

/-- **Every call of a history of loads and unloads does what it is for if and only if none of them
unloads the first module of the list.** -/
theorem modules_iff (img : Images) (fuel : Nat) (calls : List Call)
    (hlegal : Legal noneLoaded calls) (hfuel : calls.length ≤ fuel) :
    AlwaysExact img fuel noneLoaded start calls ↔ KeepsFirst noneLoaded calls :=
  alwaysExact_iff calls ⟨rfl, rfl, rfl, rfl⟩ List.nodup_nil hlegal
    (by simpa [noneLoaded] using hfuel)

/-- An open file whose `.fini_array` has one function, at address 7. -/
def oneFunction : Images := ⟨fun _ => some (0, 4), fun _ => 7⟩

/-- Two modules are loaded, and the second one is unloaded. -/
theorem modules_iff_second : AlwaysExact oneFunction 3 noneLoaded start
    [.load 1 ⟨1, 1, 1⟩, .load 2 ⟨2, 2, 1⟩, .unload 2] := by
  refine (modules_iff oneFunction 3 _ ?_ (Nat.le_refl _)).mpr ?_
  · simp [Legal, Loaded.Allows, Loaded.step, noneLoaded]
  · simp [KeepsFirst, Loaded.step, noneLoaded]

/-- A single module is loaded and unloaded: it stays in the list, its function is not called and its
page is not freed. -/
theorem unload_single_fails :
    ([.load 1 ⟨1, 1, 1⟩, .unload 1].foldlM (step oneFunction 2) start).map
        (fun s => (s.head, s.called, s.freed)) = some (some 1, [], []) ∧
      runFuncArray oneFunction ⟨1, 1, 1⟩ = [7] ∧
      ¬ AlwaysExact oneFunction 2 noneLoaded start [.load 1 ⟨1, 1, 1⟩, .unload 1] := by
  refine ⟨by decide, by decide, fun h => ?_⟩
  have hexact : Exact oneFunction noneLoaded start := ⟨rfl, rfl, rfl, rfl⟩
  have hkeeps := (alwaysExact_iff [.load 1 ⟨1, 1, 1⟩, .unload 1] hexact List.nodup_nil
    (by simp [Legal, Loaded.Allows, Loaded.step, noneLoaded]) (Nat.le_refl _)).mp h
  exact hkeeps.2.1 1 rfl rfl

end FoliOS.Vellum.Modules
