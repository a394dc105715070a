import FoliOS.Strata.Gnt.Node
import FoliOS.Strata.Utf

/-!
# The PCI bus scan (`strata/temp/pci/`)

`StPci_ScanBus` walks the buses depth first and calls back for every bus, device and function it
finds; `register_gnt_nodes` is the one caller, whose callbacks add a node to the global node tree
each. A function is a bridge when its class is 06.04; the scan descends into its secondary bus,
unless that is 0, right after the callback for the function. Nothing records the buses that were
visited, so the depth of the recursion is the fuel of the model: with too little of it, or after a
null dereference, there is no result.

The callbacks keep the nodes of the current bus and device in `struct pci_iter_data`, which all
levels of the recursion share.

Left out: what `iterate_function` reads for the log only, and `pci_scan_bars`, which restores the
registers it probes.
-/

namespace FoliOS.Strata.Pci

open Gnt (Addr Heap typeDirectory)

/-! ## Configuration space -/

/-- The contents of the configuration space by bus, device, function and offset, and the buses
that a memory-mapped window covers. -/
structure Config where
  byte : UInt8 → Nat → Nat → Nat → UInt8
  ecam : UInt8 → Bool

/-- `validate_cfg_access` -/
def validateCfgAccess (device function offset width : Nat) : StStatus :=
  if 32 ≤ device ∨ 8 ≤ function then .invalidValue
  else if width = 0 ∨ 4 < width ∨ 4096 - width < offset then .invalidValue
  else if (width = 2 ∧ offset % 2 ≠ 0) ∨ (width = 4 ∧ offset % 4 ≠ 0) then .invalidValue
  else .success

/-- `validate_cfg_backend` -/
def validateCfgBackend (ecam : Bool) (offset width : Nat) : StStatus :=
  if ecam then .success else if 256 - width < offset then .notSupported else .success

/-- The checks of the `StPciP_ReadCfg*` functions. -/
def accessStatus (cfg : Config) (bus : UInt8) (device function offset width : Nat) : StStatus :=
  if checkSuccess (validateCfgAccess device function offset width) then
    validateCfgBackend (cfg.ecam bus) offset width
  else validateCfgAccess device function offset width

/-- `StPciP_ReadCfg8` -/
def readCfg8 (cfg : Config) (bus : UInt8) (device function offset : Nat) :
    Except StStatus UInt8 :=
  if checkSuccess (accessStatus cfg bus device function offset 1) then
    .ok (cfg.byte bus device function offset)
  else .error (accessStatus cfg bus device function offset 1)

/-- `StPciP_ReadCfg16` -/
def readCfg16 (cfg : Config) (bus : UInt8) (device function offset : Nat) :
    Except StStatus Nat :=
  if checkSuccess (accessStatus cfg bus device function offset 2) then
    .ok ((cfg.byte bus device function offset).toNat +
      256 * (cfg.byte bus device function (offset + 1)).toNat)
  else .error (accessStatus cfg bus device function offset 2)

/-- `PCI_CFGHDR_VENDORID` -/
def vendorIdOffset : Nat := 0x00

/-- `PCI_CFGHDR_SUB_CLASS` -/
def subClassOffset : Nat := 0x0A

/-- `PCI_CFGHDR_BASE_CLASS` -/
def baseClassOffset : Nat := 0x0B

/-- `PCI_CFGHDR_HEADER_TYPE` -/
def headerTypeOffset : Nat := 0x0E

/-- `PCI_CFGHDR1_SECONDARY_BUS` -/
def secondaryBusOffset : Nat := 0x19

theorem accessStatus_success (cfg : Config) (bus : UInt8) {device function offset width : Nat}
    (hd : device < 32) (hf : function < 8) (hw : width = 1 ∨ width = 2 ∧ offset % 2 = 0)
    (ho : offset < 0x20) : accessStatus cfg bus device function offset width = .success := by
  have haccess : validateCfgAccess device function offset width = .success := by
    unfold validateCfgAccess
    rw [if_neg (by omega), if_neg (by omega), if_neg (by omega)]
  have hbackend : validateCfgBackend (cfg.ecam bus) offset width = .success := by
    unfold validateCfgBackend
    split
    · rfl
    · rw [if_neg (by omega)]
  rw [accessStatus, haccess, hbackend]
  rfl

theorem readCfg8_ok (cfg : Config) (bus : UInt8) {device function offset : Nat}
    (hd : device < 32) (hf : function < 8) (ho : offset < 0x20) :
    readCfg8 cfg bus device function offset = .ok (cfg.byte bus device function offset) := by
  rw [readCfg8, accessStatus_success cfg bus hd hf (Or.inl rfl) ho]
  rfl

/-! ## The scan -/

/-- `enum StPci_ScanIterationDecision` -/
inductive Decision where
  | proceed
  | skipChildren
  | breakSiblings
  | abort
  deriving DecidableEq, Repr

/-- The callbacks of a scan, over the context they share. -/
structure Callbacks (σ : Type) where
  bus      : Option (UInt8 → σ → Option (Decision × σ))
  device   : Option (UInt8 → Nat → σ → Option (Decision × σ))
  function : Option (UInt8 → Nat → Nat → σ → Option (Decision × σ))

/-- What a scan function returns: its status, `is_aborted`, and the context. -/
structure Outcome (σ : Type) where
  status  : StStatus
  aborted : Bool
  context : σ

section Scan

variable {σ : Type}

/-- The two checks after each nested call. -/
def andThen (r : Option (Outcome σ)) (next : σ → Option (Outcome σ)) : Option (Outcome σ) :=
  match r with
  | none => none
  | some o => if checkSuccess o.status && !o.aborted then next o.context else some o

/-- The call of a device or function callback: its decision, whether the siblings that follow are
muted, and the context. -/
def visit (call : Option (σ → Option (Decision × σ))) (decision : Decision) (mute : Bool) (s : σ) :
    Option (Decision × Bool × σ) :=
  match call with
  | none => some (decision, mute, s)
  | some f =>
    if decision ≠ .skipChildren ∧ decision ≠ .breakSiblings ∧ mute = false then
      (f s).map fun r => (r.1, mute || r.1 == .breakSiblings, r.2)
    else some (decision, mute, s)

/-- `scan_pci_function`, over the scan of a bus. -/
def scanPciFunction (cfg : Config) (cb : Callbacks σ)
    (scanBus : Decision → UInt8 → σ → Option (Outcome σ)) (decision : Decision) (bus : UInt8)
    (device function : Nat) (s : σ) : Option (Outcome σ) :=
  match readCfg8 cfg bus device function baseClassOffset with
  | .error e => some ⟨e, false, s⟩
  | .ok baseClass =>
    match readCfg8 cfg bus device function subClassOffset with
    | .error e => some ⟨e, false, s⟩
    | .ok subClass =>
      if baseClass = 0x06 ∧ subClass = 0x04 then
        match readCfg8 cfg bus device function secondaryBusOffset with
        | .error e => some ⟨e, false, s⟩
        | .ok secondary =>
          if secondary ≠ 0 then
            match cb.bus with
            | some call =>
              if decision ≠ .breakSiblings then
                match call secondary s with
                | none => none
                | some (.abort, s) => some ⟨.success, true, s⟩
                | some (decision, s) => scanBus decision secondary s
              else scanBus decision secondary s
            | none => scanBus decision secondary s
          else some ⟨.success, false, s⟩
      else some ⟨.success, false, s⟩

/-- The loop of `scan_pci_device` over the functions. -/
def scanFunctions (cfg : Config) (cb : Callbacks σ)
    (scanBus : Decision → UInt8 → σ → Option (Outcome σ)) (decision : Decision) (bus : UInt8)
    (device : Nat) : List Nat → Bool → σ → Option (Outcome σ)
  | [], _, s => some ⟨.success, false, s⟩
  | function :: rest, mute, s =>
    let body := fun (_ : Unit) =>
      match visit (cb.function.map fun call => call bus device function) decision mute s with
      | none => none
      | some (.abort, _, s) => some ⟨.success, true, s⟩
      | some (decision', mute, s) =>
        andThen (scanPciFunction cfg cb scanBus decision' bus device function s)
          (scanFunctions cfg cb scanBus decision bus device rest mute)
    if 0 < function then
      match readCfg16 cfg bus device function vendorIdOffset with
      | .error e => some ⟨e, false, s⟩
      | .ok vendorId =>
        if vendorId = 0xFFFF then scanFunctions cfg cb scanBus decision bus device rest mute s
        else body ()
    else body ()

/-- `scan_pci_device`, over the scan of a bus. -/
def scanPciDevice (cfg : Config) (cb : Callbacks σ)
    (scanBus : Decision → UInt8 → σ → Option (Outcome σ)) (decision : Decision) (bus : UInt8)
    (device : Nat) (s : σ) : Option (Outcome σ) :=
  match readCfg8 cfg bus device 0 headerTypeOffset with
  | .error e => some ⟨e, false, s⟩
  | .ok headerType =>
    scanFunctions cfg cb scanBus decision bus device
      (List.range (if headerType &&& 0x80 ≠ 0 then 8 else 1)) false s

/-- The loop of `scan_pci_bus` over the devices. -/
def scanDevices (cfg : Config) (cb : Callbacks σ)
    (scanBus : Decision → UInt8 → σ → Option (Outcome σ)) (decision : Decision) (bus : UInt8) :
    List Nat → Bool → σ → Option (Outcome σ)
  | [], _, s => some ⟨.success, false, s⟩
  | device :: rest, mute, s =>
    match readCfg16 cfg bus device 0 vendorIdOffset with
    | .error e => some ⟨e, false, s⟩
    | .ok vendorId =>
      if vendorId = 0xFFFF then scanDevices cfg cb scanBus decision bus rest mute s
      else
        match visit (cb.device.map fun call => call bus device) decision mute s with
        | none => none
        | some (.abort, _, s) => some ⟨.success, true, s⟩
        | some (decision', mute, s) =>
          andThen (scanPciDevice cfg cb scanBus decision' bus device s)
            (scanDevices cfg cb scanBus decision bus rest mute)

/-- `scan_pci_bus`; the fuel bounds the nesting of buses. -/
def scanPciBus (cfg : Config) (cb : Callbacks σ) : Nat → Decision → UInt8 → σ → Option (Outcome σ)
  | 0, _, _, _ => none
  | fuel + 1, decision, bus, s =>
    scanDevices cfg cb (scanPciBus cfg cb fuel) decision bus (List.range 32) false s

/-- `StPci_ScanBus` -/
def scanBus (cfg : Config) (cb : Callbacks σ) (fuel : Nat) (s : σ) : Option (StStatus × σ) :=
  match cb.bus with
  | none => (scanPciBus cfg cb fuel .proceed 0 s).map fun o => (o.status, o.context)
  | some call =>
    match call 0 s with
    | none => none
    | some (decision, s) =>
      if decision = .abort ∨ decision = .breakSiblings then some (.success, s)
      else (scanPciBus cfg cb fuel decision 0 s).map fun o => (o.status, o.context)

end Scan

/-! ## Registration -/

/-- `struct pci_iter_data`, with the node tree and the number of nodes asked of the pool. -/
structure IterData where
  heap                : Heap
  allocations         : Nat
  status              : StStatus
  pciRootNode         : Option Addr
  currentBusNode      : Option Addr
  currentDeviceNode   : Option Addr
  currentFunctionNode : Option Addr

/-- A digit as `%X` prints it. -/
def hexDigit (n : Nat) : UInt8 := UInt8.ofNat (if n < 10 then 48 + n else 55 + n)

/-- `snprintf("%02X")` with the conversion to UTF-32 of all three bytes. -/
def twoDigitName (n : Nat) : List Nat :=
  Utf.utf8ToUtf32 3 [hexDigit (n / 16), hexDigit (n % 16), 0]

/-- `snprintf("%X")` of a number below 16 with the conversion to UTF-32 of both bytes. -/
def oneDigitName (n : Nat) : List Nat := Utf.utf8ToUtf32 2 [hexDigit n, 0]

/-- `U"PCI"` -/
def pciName : List Nat := [80, 67, 73]

/-- `node->type = GNT_NODETYPE_DIRECTORY` -/
def makeDirectory (node : Option Addr) (h : Heap) : Option Heap :=
  match node with
  | none => none
  | some a => (h a).map fun nd => h.set a { nd with type := typeDirectory }

section Register

-- what the pool answers to the successive allocations
variable (pool : Nat → Except StStatus Addr)

/-- The shared part of the callbacks: a node is added, and a failure recorded. -/
def addIterNode (parent : Option Addr) (name : List Nat) (s : IterData) :
    Option (Except IterData (Option Addr × IterData)) :=
  match Gnt.addNode (pool s.allocations) parent (some name) s.heap with
  | none => none
  | some (status, node, h) =>
    let s := { s with heap := h, allocations := s.allocations + 1 }
    if checkSuccess status then some (.ok (node, s)) else some (.error { s with status := status })

/-- `iterate_bus` -/
def iterateBus (bus : UInt8) (s : IterData) : Option (Decision × IterData) :=
  match addIterNode pool s.pciRootNode (twoDigitName bus.toNat) s with
  | none => none
  | some (.error s) => some (.abort, s)
  | some (.ok (node, s)) => (makeDirectory node s.heap).map fun h =>
      (.proceed, { s with heap := h, currentBusNode := node })

/-- `iterate_device` -/
def iterateDevice (_bus : UInt8) (device : Nat) (s : IterData) : Option (Decision × IterData) :=
  match addIterNode pool s.currentBusNode (twoDigitName device) s with
  | none => none
  | some (.error s) => some (.abort, s)
  | some (.ok (node, s)) => (makeDirectory node s.heap).map fun h =>
      (.proceed, { s with heap := h, currentDeviceNode := node })

/-- `iterate_function` -/
def iterateFunction (_bus : UInt8) (_device function : Nat) (s : IterData) :
    Option (Decision × IterData) :=
  match addIterNode pool s.currentDeviceNode (oneDigitName function) s with
  | none => none
  | some (.error s) => some (.abort, s)
  | some (.ok (node, s)) => some (.proceed, { s with currentFunctionNode := node })

/-- The callbacks `register_gnt_nodes` scans with. -/
def gntCallbacks : Callbacks IterData where
  bus      := some (iterateBus pool)
  device   := some (iterateDevice pool)
  function := some (iterateFunction pool)

/-- `register_gnt_nodes` -/
def registerGntNodes (cfg : Config) (fuel : Nat) (parentNode : Addr) (h : Heap) :
    Option (StStatus × IterData) :=
  match Gnt.addNode (pool 0) (some parentNode) (some pciName) h with
  | none => none
  | some (status, pciRoot, h) =>
    let s : IterData := ⟨h, 1, .success, none, none, none, none⟩
    if checkSuccess status then
      match makeDirectory pciRoot h with
      | none => none
      | some h =>
        match scanBus cfg (gntCallbacks pool) fuel { s with heap := h, pciRootNode := pciRoot } with
        | none => none
        | some (status, s) => some (if checkSuccess status then s.status else status, s)
    else some (status, s)

end Register

end FoliOS.Strata.Pci
