import FoliOS.Vellum.Fat.Volume

/-!
# Vellum — reading along a chain

The driver goes along a chain until the table ends it or names a cluster above the highest number
it knows. The clusters it gets to are a `Walk`. Both ways to read, a run of neighbouring clusters at
once or a cluster through the buffer, give the bytes of the walk.

* `readContiguousClusters_eq` — a run of neighbouring clusters.
* `readLoop_on` — the loop of `read` on a walk.
-/

namespace FoliOS.Vellum.Fat

open Lib

variable {k len : Nat} {out : List UInt8}

/-! ## Walks -/

/-- The clusters the driver gets to from the first one. -/
def Walk (disk : Bytes) (b : Bpb) : List Nat → Prop
  | [] => False
  | [c] => nextOf disk b c = none
  | c :: c' :: rest => nextOf disk b c = some c' ∧ Walk disk b (c' :: rest)

/-- The part of a chain the driver gets to. -/
def usable (b : Bpb) : List Nat → List Nat
  | [] => []
  | c :: rest =>
    if c ≤ b.fatType.maxCluster then c :: rest.takeWhile (· ≤ b.fatType.maxCluster) else [c]

section Walks

variable {disk : Bytes} {b : Bpb} {c c' : Nat} {rest : List Nat}

theorem maxCluster_lt_endOfChain (t : FatType) : t.maxCluster < t.endOfChain := by
  cases t <;> decide

/-- The table leads along the walk. -/
theorem Walk.next (h : Walk disk b (c :: rest)) : nextOf disk b c = rest.head? := by
  cases rest with
  | nil => exact h
  | cons c' rest => exact h.1

theorem Walk.tail (h : Walk disk b (c :: c' :: rest)) : Walk disk b (c' :: rest) := h.2

theorem Walk.drop {walk : List Nat} (h : Walk disk b walk) (hk : k < walk.length) :
    Walk disk b (walk.drop k) := by
  induction k generalizing walk with
  | zero => exact h
  | succ k ih =>
    match walk, h with
    | [c], _ => simp at hk
    | c :: c' :: rest, h => exact ih h.tail (by simpa using hk)

theorem Walk.next_le (h : Walk disk b (c :: c' :: rest)) : c' ≤ b.fatType.maxCluster := by
  have hnext := h.next
  rw [nextOf] at hnext
  split at hnext
  next hle =>
    have heq : entryOf disk b c = c' := Option.some.inj hnext
    exact heq ▸ hle.2
  next => cases hnext

/-- The steps along a walk. -/
theorem Walk.steps (h : Walk disk b (c :: rest)) (hc : c ≤ b.fatType.maxCluster) (count : Nat) :
    stepsOf disk b count c = (c :: rest)[count]? := by
  induction count generalizing c rest with
  | zero => exact if_pos hc
  | succ count ih =>
    rw [stepsOf, h.next]
    cases rest with
    | nil => rfl
    | cons c' rest => exact ih h.tail h.next_le

theorem Walk.steps_one (h : Walk disk b (c :: rest)) : stepsOf disk b 1 c = rest.head? := by
  rw [stepsOf, h.next]
  cases rest with
  | nil => rfl
  | cons c' rest => exact if_pos h.next_le

theorem steps_of_gt (hc : b.fatType.maxCluster < c) (count : Nat) :
    stepsOf disk b count c = none := by
  cases count with
  | zero => exact if_neg (by omega)
  | succ count =>
    rw [stepsOf, nextOf, if_neg (by omega)]
    rfl

theorem Chain.tail (h : Chain disk b (c :: c' :: rest)) : Chain disk b (c' :: rest) where
  nonempty := List.cons_ne_nil _ _
  valid x hx := h.valid x (List.mem_cons_of_mem _ hx)
  linked := h.linked.tail
  ends x hx := h.ends x (by rwa [List.getLast?_cons_cons])

/-- **The driver gets along a chain up to a cluster above its maximum.** -/
theorem walk_usable {clusters : List Nat} (h : Chain disk b clusters) :
    Walk disk b (usable b clusters) := by
  induction clusters with
  | nil => exact absurd rfl h.nonempty
  | cons c rest ih =>
    rw [usable]
    split
    next hc =>
      cases rest with
      | nil =>
        have hends := h.ends c rfl
        have hlt := maxCluster_lt_endOfChain b.fatType
        exact if_neg (by omega)
      | cons c' rest =>
        have hlink : entryOf disk b c = c' := (List.isChain_cons_cons.mp h.linked).1
        by_cases hc' : c' ≤ b.fatType.maxCluster
        · have htail := ih h.tail
          rw [usable, if_pos hc'] at htail
          rw [List.takeWhile_cons_of_pos (by simpa using hc')]
          exact ⟨by rw [nextOf, hlink, if_pos ⟨hc, hc'⟩], htail⟩
        · rw [List.takeWhile_cons_of_neg (by simpa using hc')]
          exact if_neg fun hle => hc' (hlink ▸ hle.2)
    next hc => exact if_neg fun hle => hc hle.1

theorem usable_take (clusters : List Nat) : usable b clusters <+: clusters := by
  cases clusters with
  | nil => exact List.prefix_refl _
  | cons c rest =>
    rw [usable]
    split
    · exact (List.prefix_cons_inj c).mpr (List.takeWhile_prefix _)
    · exact (List.prefix_cons_inj c).mpr (List.nil_prefix)

end Walks

/-! ## Clusters -/

/-- A number of a cluster of the volume. -/
def ValidCluster (b : Bpb) (c : Nat) : Prop := 2 ≤ c ∧ c ≤ b.clusterCount + 1

section Clusters

variable {dev : BlockDevice} {disk : Bytes} {b : Bpb} {root : Nat} {d : FatData} {c : Nat}

/-- The sector of a cluster as the driver computes it. -/
theorem fatclusterToSector_eq (hb : b.WellFormed) (hv : OnVolume disk b root d)
    (hc : ValidCluster b c) : fatclusterToSector d c = b.sectorOf c := by
  have hlt := hb.sectorOf_lt hc.1 hc.2
  have htotal := hb.total
  have hc2 := hc.1
  have hsplit : (c + 2 ^ 32 - 2) * b.sectorsPerCluster =
      (c - 2) * b.sectorsPerCluster + 2 ^ 32 * b.sectorsPerCluster := by
    rw [← Nat.add_mul]
    congr 1
    omega
  have hfixed : d.fatType = .fat32 → b.rootSectors = 0 := by
    intro h32
    rw [hv.fatType] at h32
    rw [Bpb.rootSectors, hb.noFixedRoot h32]
  unfold Bpb.sectorOf at hlt ⊢
  rw [fatclusterToSector, hv.sectorsPerCluster, hv.dataAreaBegin, hv.rootSectorCount, hsplit]
  cases htype : d.fatType with
  | fat12 | fat16 =>
    simp only
    omega
  | fat32 =>
    have hroot := hfixed htype
    simp only
    omega

theorem OnVolume.setDatabuf (hb : b.WellFormed) (hv : OnVolume disk b root d)
    (hc : ValidCluster b c) {l : List UInt8} (hl : l = clusterBytes disk b c) :
    OnVolume disk b root { d with databuf := l, databufLbaStart := b.sectorOf c } :=
  { hv with
    databuf := fun c' h2 hle heq => by
      have hcc : c = c' := b.sectorOf_inj hb.sectorsPerCluster_bounds.1 hc.1 h2
        (Int.ofNat_inj.mp heq)
      rw [hl, hcc] }

theorem Mounted.dropDatabuf (hm : Mounted disk b root d) :
    Mounted disk b root { d with databufLbaStart := -1 } := by
  refine { hm with databuf := fun c _ _ heq => ?_ }
  have hneg : (-1 : Int) = (b.sectorOf c : Int) := heq
  omega

/-- The buffer of the table is the same. -/
def SameFat (d d' : FatData) : Prop := d'.fatbufLba = d.fatbufLba ∧ d'.fatbuf = d.fatbuf

theorem SameFat.loaded {d' : FatData} {lba : Nat} (h : SameFat d d') (hl : Loaded disk d lba) :
    Loaded disk d' lba := by
  unfold Loaded
  rw [h.1, h.2]
  exact hl

theorem sameFat_mountData {memory : FatData} : SameFat memory (mountData b memory) := ⟨rfl, rfl⟩

/-- **`read_cluster`** -/
theorem readCluster_eq (hdev : dev.Holds disk) (hb : b.WellFormed) (hv : OnVolume disk b root d)
    (hc : ValidCluster b c) :
    ∃ d', readCluster dev d c = .ok d' ∧ OnVolume disk b root d' ∧ SameFat d d' ∧
      d'.databuf = clusterBytes disk b c := by
  rw [readCluster, fatclusterToSector_eq hb hv hc]
  split
  next heq => exact ⟨d, rfl, hv, ⟨rfl, rfl⟩, hv.databuf c hc.1 hc.2 heq⟩
  next hne =>
    obtain ⟨l, hl⟩ : ∃ l, l = clusterBytes disk b c := ⟨_, rfl⟩
    have hread : dev.read (b.sectorOf c) d.sectorsPerCluster = .ok l := by
      rw [hdev.read, hv.sectorsPerCluster, hl]
      rfl
    rw [hread]
    exact ⟨_, rfl, hv.setDatabuf hb hc hl, ⟨rfl, rfl⟩, hl⟩

/-- A run of neighbouring clusters is one piece of the disk. -/
theorem slice_run (k : Nat) (hc : 2 ≤ c) :
    disk.slice (512 * b.sectorOf c) (512 * (k * b.sectorsPerCluster)) =
      ((List.range k).map (c + ·)).flatMap (clusterBytes disk b) := by
  induction k with
  | zero => simp [Bytes.slice]
  | succ k ih =>
    have hsector : b.sectorOf (c + k) = b.sectorOf c + k * b.sectorsPerCluster := by
      unfold Bpb.sectorOf
      rw [show c + k - 2 = c - 2 + k by omega, Nat.add_mul]
      omega
    rw [Nat.add_mul, Nat.one_mul, Nat.mul_add, Bytes.slice_append, ih, List.range_succ,
      List.map_append, List.flatMap_append]
    rw [List.map_singleton, List.flatMap_singleton, clusterBytes, hsector, Nat.mul_add]
    rfl

end Clusters

/-! ## Runs of neighbouring clusters -/

section Runs

variable {dev : BlockDevice} {disk : Bytes} {b : Bpb} {root : Nat} {d : FatData} {c : Nat}
  {rest : List Nat}

/-- One step along a walk. -/
theorem getNextCluster_walk (hdev : dev.Holds disk) (hv : OnVolume disk b root d)
    (hl : Loaded disk d (b.fatSector c)) (hc : c ≤ b.fatType.maxCluster)
    (hw : Walk disk b (c :: rest)) :
    ∃ st d' c', getNextCluster dev d c 1 = (st, d', c') ∧ Mounted disk b root d' ∧
      (rest.head? = some c' ∧ st.ok = true ∨ rest.head? = none ∧ st.ok = false) := by
  have hstep := getNextCluster_eq hdev hv c 1 fun _ _ => hl
  rcases hres : getNextCluster dev d c 1 with ⟨st, d', c'⟩
  rw [hres] at hstep
  refine ⟨st, d', c', rfl, hstep.mounted hc Nat.one_pos, ?_⟩
  rcases hstep.result with ⟨hsome, hst⟩ | ⟨hnone, hst⟩
  · rw [hw.steps_one] at hsome
    exact .inl ⟨hsome, VlStatus.ok_iff.mpr hst⟩
  · rw [hw.steps_one] at hnone
    exact .inr ⟨hnone, hst⟩

/-- The loop of `read_contiguous_clusters`: a run of neighbours at the start of the walk. The table
is looked at unless only one cluster is asked for. -/
theorem contiguousLoop_eq (hdev : dev.Holds disk) (more count : Nat) (hv : OnVolume disk b root d)
    (hl : Loaded disk d (b.fatSector c)) (hw : Walk disk b (c :: rest))
    (hmax : ∀ x ∈ c :: rest, x ≤ b.fatType.maxCluster) :
    ∃ j d' next, contiguousLoop dev more d c count = (d', c + j, count + j, next) ∧
      (more = 0 ∧ d' = d ∨ Mounted disk b root d') ∧ j ≤ more ∧
      (c :: rest).take (j + 1) = (List.range (j + 1)).map (c + ·) ∧
      (j < more → next = (c :: rest)[j + 1]?) ∧ (j = more → next = none) := by
  induction more generalizing d c rest count with
  | zero =>
    exact ⟨0, d, none, rfl, .inl ⟨rfl, rfl⟩, le_rfl, by simp, fun h => absurd h (by omega),
      fun _ => rfl⟩
  | succ more ih =>
    obtain ⟨st, d', c', hnext, hm', hres⟩ :=
      getNextCluster_walk hdev hv hl (hmax c List.mem_cons_self) hw
    rw [contiguousLoop, hnext]
    simp only
    rcases hres with ⟨hhead, hok⟩ | ⟨hhead, hok⟩
    · rw [if_neg (by simp [hok])]
      obtain ⟨rest', rfl⟩ : ∃ rest', rest = c' :: rest' := by
        cases rest with
        | nil => cases hhead
        | cons x rest' => exact ⟨rest', by rw [Option.some.inj hhead]⟩
      split
      next hne =>
        exact ⟨0, d', _, rfl, .inr hm', by omega, by simp, fun _ => rfl,
          fun h => absurd h (by omega)⟩
      next heq =>
        obtain rfl : c' = c + 1 := not_not.mp heq
        obtain ⟨j, d'', next, hloop, hm'', hj, hrun, hearly, hlate⟩ :=
          ih (count + 1) hm'.toOnVolume (hm'.fatbuf _) hw.tail
            fun x hx => hmax x (List.mem_cons_of_mem _ hx)
        have hmounted : Mounted disk b root d'' := by
          rcases hm'' with ⟨-, rfl⟩ | h
          · exact hm'
          · exact h
        refine ⟨j + 1, d'', next, ?_, .inr hmounted, by omega, ?_, fun h => ?_,
          fun h => hlate (by omega)⟩
        · rw [hloop, Nat.add_assoc, Nat.add_assoc, Nat.add_comm 1 j]
        · have hrange : (List.range (j + 1 + 1)).map (c + ·) =
              c :: (List.range (j + 1)).map ((c + ·) ∘ Nat.succ) := by
            rw [List.range_succ_eq_map, List.map_cons, List.map_map]
            rfl
          rw [List.take_succ_cons, hrun, hrange]
          congr 1
          refine List.map_congr_left fun i _ => ?_
          simp only [Function.comp_apply]
          omega
        · exact hearly (by omega)
    · rw [if_pos (by simp [hok])]
      obtain rfl : rest = [] := List.head?_eq_none_iff.mp hhead
      exact ⟨0, d', none, rfl, .inr hm', by omega, by simp, fun _ => rfl,
        fun h => absurd h (by omega)⟩

/-- **`read_contiguous_clusters`**: the bytes of a run at the start of a walk, and the cluster after
it. -/
theorem readContiguousClusters_eq (hdev : dev.Holds disk) (hb : b.WellFormed)
    (hv : OnVolume disk b root d) (hl : Loaded disk d (b.fatSector c))
    (hw : Walk disk b (c :: rest)) (hvalid : ∀ x ∈ c :: rest, ValidCluster b x)
    (hmax : ∀ x ∈ c :: rest, x ≤ b.fatType.maxCluster) {maxCount : Nat} (hcount : 1 ≤ maxCount) :
    ∃ k d', readContiguousClusters dev d c maxCount =
        .ok (d', ((c :: rest).take k).flatMap (clusterBytes disk b), k, (c :: rest)[k]?) ∧
      Mounted disk b root d' ∧ 1 ≤ k ∧ k ≤ maxCount ∧ k ≤ (c :: rest).length := by
  obtain ⟨j, d1, next, hloop, hm1, hj, hrun, hearly, hlate⟩ :=
    contiguousLoop_eq hdev (maxCount - 1) 1 hv hl hw hmax
  have hlength : j + 1 ≤ (c :: rest).length := by
    have := congrArg List.length hrun
    rw [List.length_take, List.length_map, List.length_range] at this
    omega
  -- the cluster after the run, in both cases
  have hnext : ∃ d2, (if 1 + j = maxCount then
        ((getNextCluster dev d1 (c + j) 1).2.1, if (getNextCluster dev d1 (c + j) 1).1.ok then
          some (getNextCluster dev d1 (c + j) 1).2.2 else next)
      else (d1, next)) = (d2, (c :: rest)[j + 1]?) ∧ Mounted disk b root d2 := by
    split
    next hall =>
      have hlast : (c :: rest)[j]? = some (c + j) := by
        rw [← List.getElem?_take_of_lt (Nat.lt_succ_self j), hrun]
        simp
      obtain ⟨hj', hlast⟩ := List.getElem?_eq_some_iff.mp hlast
      have hwj := hw.drop hj'
      rw [List.drop_eq_getElem_cons hj', hlast] at hwj
      have hready : OnVolume disk b root d1 ∧ Loaded disk d1 (b.fatSector (c + j)) := by
        rcases hm1 with ⟨hone, rfl⟩ | hm1
        · obtain rfl : j = 0 := by omega
          exact ⟨hv, hl⟩
        · exact ⟨hm1.toOnVolume, hm1.fatbuf _⟩
      obtain ⟨st, d2, c', hget, hm2, hres⟩ := getNextCluster_walk hdev hready.1 hready.2
        (hmax _ (hlast ▸ List.getElem_mem hj')) hwj
      refine ⟨d2, ?_, hm2⟩
      rw [hget, ← List.head?_drop]
      rcases hres with ⟨hhead, hok⟩ | ⟨hhead, hok⟩
      · simp only [hok, if_true, hhead]
      · simp only [hok, Bool.false_eq_true, if_false, hhead, hlate (by omega)]
    next hall =>
      exact ⟨d1, by rw [hearly (by omega)], hm1.resolve_left fun h => by omega⟩
  obtain ⟨d2, hnext, hm2⟩ := hnext
  have hread : dev.read (fatclusterToSector d2 c) ((1 + j) * d2.sectorsPerCluster) =
      .ok (((c :: rest).take (j + 1)).flatMap (clusterBytes disk b)) := by
    have hc := hvalid c List.mem_cons_self
    rw [hdev.read, fatclusterToSector_eq hb hm2.toOnVolume hc, hm2.sectorsPerCluster,
      slice_run _ hc.1, hrun, Nat.add_comm]
  refine ⟨j + 1, { d2 with databufLbaStart := -1 }, ?_, ?_, by omega, by omega, hlength⟩
  · rw [readContiguousClusters, hloop]
    simp only
    rw [hnext]
    rw [hread, Nat.add_comm 1 j]
    rfl
  · exact hm2.dropDatabuf

end Runs

/-! ## The loop of `read` -/

/-- The bytes of the clusters of a walk. -/
def walkBytes (disk : Bytes) (b : Bpb) (walk : List Nat) : List UInt8 :=
  walk.flatMap (clusterBytes disk b)

section Loop

variable {dev : BlockDevice} {disk : Bytes} {b : Bpb} {root : Nat} {d : FatData} {f : FileData}
  {walk : List Nat}

theorem length_clusterBytes (c : Nat) : (clusterBytes disk b c).length = b.clusterSize :=
  Bytes.length_slice _ _ _

theorem length_walkBytes (walk : List Nat) :
    (walkBytes disk b walk).length = walk.length * b.clusterSize := by
  induction walk with
  | nil => exact (Nat.zero_mul _).symm
  | cons c walk ih =>
    rw [walkBytes, List.flatMap_cons, List.length_append, length_clusterBytes, List.length_cons,
      Nat.add_mul, Nat.one_mul, Nat.add_comm]
    exact congrArg (· + _) ih

theorem walkBytes_take_append (walk : List Nat) (k : Nat) :
    walkBytes disk b walk = walkBytes disk b (walk.take k) ++ walkBytes disk b (walk.drop k) := by
  rw [walkBytes, walkBytes, walkBytes, ← List.flatMap_append, List.take_append_drop]

/-- The cursor wraps around with the clusters. -/
theorem Bpb.WellFormed.clusterSize_dvd (hb : b.WellFormed) : b.clusterSize ∣ 2 ^ 32 := by
  obtain ⟨k, hk, heq⟩ := hb.clusterSize
  rw [Bpb.clusterSize, heq, show (512 : Nat) = 2 ^ 9 from rfl, ← Nat.pow_add]
  exact Nat.pow_dvd_pow 2 (by omega)

theorem Bpb.WellFormed.clusterSize_pos (hb : b.WellFormed) : 0 < b.clusterSize := by
  have hspc := hb.sectorsPerCluster_bounds
  unfold Bpb.clusterSize
  omega

theorem length_walkBytes_take (walk : List Nat) (hk : k ≤ walk.length) :
    (walkBytes disk b (walk.take k)).length = k * b.clusterSize := by
  rw [length_walkBytes, List.length_take, Nat.min_eq_left hk]

theorem walkBytes_drop (walk : List Nat) (hk : k ≤ walk.length) (o : Nat) :
    (walkBytes disk b (walk.drop k)).drop o =
      (walkBytes disk b walk).drop (k * b.clusterSize + o) := by
  rw [walkBytes_take_append walk k, ← List.drop_drop,
    List.drop_left' (length_walkBytes_take walk hk)]

theorem walkBytes_take (walk : List Nat) (hk : k ≤ walk.length) :
    walkBytes disk b (walk.take k) = (walkBytes disk b walk).take (k * b.clusterSize) := by
  rw [walkBytes_take_append walk k, List.take_left' (length_walkBytes_take walk hk)]

/-- The walk from a cluster on. -/
theorem drop_eq_cons {i c : Nat} (hget : walk[i]? = some c) :
    walk.drop i = c :: walk.drop (i + 1) := by
  obtain ⟨hi, hat⟩ := List.getElem?_eq_some_iff.mp hget
  rw [List.drop_eq_getElem_cons hi, hat]

/-- The cluster of a byte behind byte `p`. -/
theorem add_div_of_mod {s : Nat} (hs : 0 < s) (p n : Nat) :
    (p + n) / s = p / s + (p % s + n) / s := by
  have hp : p / s * s + p % s = p := Nat.div_add_mod' _ _
  rw [show p + n = p % s + n + p / s * s by omega, Nat.add_mul_div_right _ _ hs, Nat.add_comm]

/-- The loop of `read` is at byte `p` of a walk, with `len` bytes to go. The buffer of the table
only has to be known if that leads to the end of the cluster. -/
structure Reading (disk : Bytes) (b : Bpb) (root : Nat) (walk : List Nat) (d : FatData)
    (f : FileData) (p len : Nat) : Prop where
  onVolume : OnVolume disk b root d
  loaded   : b.clusterSize ≤ p % b.clusterSize + len → Loaded disk d (b.fatSector f.currentCluster)
  current  : walk[p / b.clusterSize]? = some f.currentCluster
  cursor   : f.cursor = p % 2 ^ 32

/-- The table was looked at, or both its buffer and the current cluster are as before. -/
def Seen (disk : Bytes) (b : Bpb) (root : Nat) (d : FatData) (f : FileData) (d' : FatData)
    (f' : FileData) : Prop :=
  Mounted disk b root d' ∨ SameFat d d' ∧ f'.currentCluster = f.currentCluster

/-- A round that reads `a` bytes: the loop goes on behind them, or ends with the walk. -/
structure Round (dev : BlockDevice) (disk : Bytes) (b : Bpb) (root : Nat) (walk : List Nat)
    (fuel : Nat) (d : FatData) (f : FileData) (p len : Nat) (out : List UInt8) (d' : FatData)
    (f' : FileData) (a : Nat) : Prop where
  bounds   : 0 < a ∧ a ≤ len
  onVolume : OnVolume disk b root d'
  seen     : Seen disk b root d f d' f'
  file     : f' = { f with cursor := (p + a) % 2 ^ 32, currentCluster := f'.currentCluster }
  goesOn   : walk[(p + a) / b.clusterSize]? = some f'.currentCluster ∧
      readLoop dev (fuel + 1) d f len out =
        readLoop dev fuel d' f' (len - a) (out ++ ((walkBytes disk b walk).drop p).take a) ∨
    p + a = walk.length * b.clusterSize ∧ readLoop dev (fuel + 1) d f len out =
      some (.success, d', f', out ++ ((walkBytes disk b walk).drop p).take a)

/-- Where the bytes read end a walk. -/
theorem eq_end_of_none (hb : b.WellFormed) {n : Nat} (hle : n ≤ walk.length * b.clusterSize)
    (hnone : walk[n / b.clusterSize]? = none) : n = walk.length * b.clusterSize := by
  have hge := (Nat.le_div_iff_mul_le hb.clusterSize_pos).mp (List.getElem?_eq_none_iff.mp hnone)
  omega

section Rounds

variable (hdev : dev.Holds disk) (hb : b.WellFormed) (hw : Walk disk b walk)
  (hvalid : ∀ c ∈ walk, ValidCluster b c) (hmax : ∀ c ∈ walk, c ≤ b.fatType.maxCluster)
  {p : Nat} (h : Reading disk b root walk d f p len)
include hdev hb hw hvalid hmax h

/-- A round that reads a run of neighbouring clusters. -/
theorem Reading.run (fuel : Nat) (hzero : p % b.clusterSize = 0) (hlong : b.clusterSize * 2 ≤ len) :
    ∃ d' f' a, Round dev disk b root walk fuel d f p len out d' f' a := by
  have hcs := hb.clusterSize_pos
  have hsplit := drop_eq_cons h.current
  obtain ⟨hi, -⟩ := List.getElem?_eq_some_iff.mp h.current
  have hhere := hw.drop hi
  have hp : p / b.clusterSize * b.clusterSize + p % b.clusterSize = p := Nat.div_add_mod' _ _
  have hbytes := @walkBytes_drop _ disk b walk hi.le (p % b.clusterSize)
  rw [hp, hzero, List.drop_zero] at hbytes
  have hmem : ∀ x ∈ walk.drop (p / b.clusterSize), x ∈ walk := fun x => List.mem_of_mem_drop
  rw [hsplit] at hhere hmem hbytes
  generalize walk.drop (p / b.clusterSize + 1) = rest at hsplit hhere hmem hbytes
  have hcount : 1 ≤ len / b.clusterSize := by
    rw [Nat.le_div_iff_mul_le hcs]
    omega
  obtain ⟨k, d', hread, hm', hk1, hkmax, hkwalk⟩ := readContiguousClusters_eq hdev hb h.onVolume
    (h.loaded (by omega)) hhere (fun x hx => hvalid x (hmem x hx))
    (fun x hx => hmax x (hmem x hx)) hcount
  have hklen : k * b.clusterSize ≤ len :=
    (Nat.mul_le_mul_right _ hkmax).trans (Nat.div_mul_le_self _ _)
  have hone : b.clusterSize ≤ k * b.clusterSize := Nat.le_mul_of_pos_left _ hk1
  have hrun : ((f.currentCluster :: rest).take k).flatMap (clusterBytes disk b) =
      ((walkBytes disk b walk).drop p).take (k * b.clusterSize) := by
    rw [← hbytes, ← walkBytes_take _ hkwalk]
    rfl
  have hindex :
      (f.currentCluster :: rest)[k]? = walk[(p + k * b.clusterSize) / b.clusterSize]? := by
    rw [add_div_of_mod hcs, hzero, Nat.zero_add, Nat.mul_div_cancel _ hcs, ← hsplit,
      List.getElem?_drop]
  have hcursor : (f.cursor + k * b.clusterSize) % 2 ^ 32 = (p + k * b.clusterSize) % 2 ^ 32 := by
    rw [h.cursor, Nat.mod_add_mod]
  have hloop : readLoop dev (fuel + 1) d f len out =
      (walk[(p + k * b.clusterSize) / b.clusterSize]?).elim
        (some (.success, d', { f with cursor := (p + k * b.clusterSize) % 2 ^ 32 },
          out ++ ((walkBytes disk b walk).drop p).take (k * b.clusterSize)))
        fun c' => readLoop dev fuel d'
          { f with cursor := (p + k * b.clusterSize) % 2 ^ 32, currentCluster := c' }
          (len - k * b.clusterSize)
          (out ++ ((walkBytes disk b walk).drop p).take (k * b.clusterSize)) := by
    rw [readLoop, if_neg (by omega), h.onVolume.clusterSize, h.cursor,
      Nat.mod_mod_of_dvd _ hb.clusterSize_dvd]
    simp only [hzero]
    rw [if_pos ⟨trivial, hlong⟩, hread, hrun]
    cases hnext : walk[(p + k * b.clusterSize) / b.clusterSize]? with
    | none =>
      simp only [hm'.clusterSize, ← h.cursor, hcursor, hindex, hnext, Option.elim_none]
    | some c' =>
      simp only [hm'.clusterSize, ← h.cursor, hcursor, hindex, hnext, Option.elim_some]
  cases hnext : walk[(p + k * b.clusterSize) / b.clusterSize]? with
  | none =>
    rw [hnext] at hloop
    have hall : p / b.clusterSize + k ≤ walk.length := by
      rw [← hsplit, List.length_drop] at hkwalk
      omega
    have hmul := Nat.mul_le_mul_right b.clusterSize hall
    rw [Nat.add_mul] at hmul
    exact ⟨d', { f with cursor := (p + k * b.clusterSize) % 2 ^ 32 }, k * b.clusterSize,
      ⟨by omega, hklen⟩, hm'.toOnVolume, .inl hm', rfl,
      .inr ⟨eq_end_of_none hb (by omega) hnext, hloop⟩⟩
  | some c' =>
    rw [hnext] at hloop
    exact ⟨d', { f with cursor := (p + k * b.clusterSize) % 2 ^ 32, currentCluster := c' },
      k * b.clusterSize, ⟨by omega, hklen⟩, hm'.toOnVolume, .inl hm', rfl,
      .inl ⟨hnext, hloop⟩⟩

/-- A round that reads a part of one cluster. -/
theorem Reading.part (fuel : Nat) (hlen : 0 < len)
    (hslow : ¬ (p % b.clusterSize = 0 ∧ len ≥ b.clusterSize * 2)) :
    ∃ d' f' a, Round dev disk b root walk fuel d f p len out d' f' a := by
  have hcs := hb.clusterSize_pos
  have hlt : p % b.clusterSize < b.clusterSize := Nat.mod_lt _ hcs
  have hp : p / b.clusterSize * b.clusterSize + p % b.clusterSize = p := Nat.div_add_mod' _ _
  have hsplit := drop_eq_cons h.current
  obtain ⟨hi, -⟩ := List.getElem?_eq_some_iff.mp h.current
  have hleft := Nat.mul_le_mul_right b.clusterSize (Nat.succ_le_of_lt hi)
  rw [Nat.succ_mul] at hleft
  have hcur := List.mem_of_getElem? h.current
  obtain ⟨d', hread, hv', hsame, hbuf⟩ := readCluster_eq hdev hb h.onVolume (hvalid _ hcur)
  generalize ha : min (b.clusterSize - p % b.clusterSize) len = a
  have hpart : ((clusterBytes disk b f.currentCluster).drop (p % b.clusterSize)).take a =
      ((walkBytes disk b walk).drop p).take a := by
    have hbytes := @walkBytes_drop _ disk b walk hi.le (p % b.clusterSize)
    rw [hp, hsplit] at hbytes
    rw [← hbytes, walkBytes, List.flatMap_cons,
      List.drop_append_of_le_length (by rw [length_clusterBytes]; omega),
      List.take_append_of_le_length (by rw [List.length_drop, length_clusterBytes]; omega)]
  have hcursor : (f.cursor + a) % 2 ^ 32 = (p + a) % 2 ^ 32 := by
    rw [h.cursor, Nat.mod_add_mod]
  have hloop : readLoop dev (fuel + 1) d f len out =
      if p % b.clusterSize + a < b.clusterSize then
        readLoop dev fuel d' { f with cursor := (p + a) % 2 ^ 32 } (len - a)
          (out ++ ((walkBytes disk b walk).drop p).take a)
      else if (getNextCluster dev d' f.currentCluster 1).1.ok then
        readLoop dev fuel (getNextCluster dev d' f.currentCluster 1).2.1
          { f with cursor := (p + a) % 2 ^ 32,
                   currentCluster := (getNextCluster dev d' f.currentCluster 1).2.2 } (len - a)
          (out ++ ((walkBytes disk b walk).drop p).take a)
      else some (.success, (getNextCluster dev d' f.currentCluster 1).2.1,
        { f with cursor := (p + a) % 2 ^ 32,
                 currentCluster := (getNextCluster dev d' f.currentCluster 1).2.2 },
        out ++ ((walkBytes disk b walk).drop p).take a) := by
    rw [readLoop, if_neg (by omega), h.onVolume.clusterSize, h.cursor,
      Nat.mod_mod_of_dvd _ hb.clusterSize_dvd]
    simp only [ha]
    rw [if_neg hslow, hread]
    simp only [hv'.clusterSize, hbuf, hpart, ← h.cursor, hcursor]
  by_cases hshort : p % b.clusterSize + a < b.clusterSize
  · rw [if_pos hshort] at hloop
    refine ⟨d', { f with cursor := (p + a) % 2 ^ 32 }, a, ⟨by omega, by omega⟩, hv',
      .inr ⟨hsame, rfl⟩, rfl, .inl ⟨?_, hloop⟩⟩
    rw [add_div_of_mod hcs, Nat.div_eq_of_lt hshort]
    exact h.current
  · rw [if_neg hshort] at hloop
    have hindex : (walk.drop (p / b.clusterSize + 1)).head? = walk[(p + a) / b.clusterSize]? := by
      rw [add_div_of_mod hcs, show p % b.clusterSize + a = b.clusterSize by omega,
        Nat.div_self hcs, List.head?_drop]
    obtain ⟨st, d'', c', hstep, hm'', hres⟩ := getNextCluster_walk hdev hv'
      (hsame.loaded (h.loaded (by omega))) (hmax _ hcur) (hsplit ▸ hw.drop hi)
    rw [hstep] at hloop
    rw [hindex] at hres
    refine ⟨d'', { f with cursor := (p + a) % 2 ^ 32, currentCluster := c' }, a,
      ⟨by omega, by omega⟩, hm''.toOnVolume, .inl hm'', rfl, ?_⟩
    rcases hres with ⟨hsome, hok⟩ | ⟨hnone, hok⟩
    · exact .inl ⟨hsome, by rw [hloop, if_pos hok]⟩
    · exact .inr ⟨eq_end_of_none hb (by omega) hnone, by rw [hloop, if_neg (by simp [hok])]⟩

end Rounds

/-- What the loop of `read` leaves when it is at byte `p` of a walk: the file is `len` bytes further
on, or at the end of the walk. -/
structure ReadOn (disk : Bytes) (b : Bpb) (root : Nat) (walk : List Nat) (d : FatData)
    (f : FileData) (p len : Nat) (out : List UInt8)
    (res : VlStatus × FatData × FileData × List UInt8) : Prop where
  status   : res.1 = .success
  onVolume : OnVolume disk b root res.2.1
  seen     : Seen disk b root d f res.2.1 res.2.2.1
  bytes    : res.2.2.2 = out ++ ((walkBytes disk b walk).drop p).take len
  size     : res.2.2.1.size = f.size
  head     : res.2.2.1.headCluster = f.headCluster
  cursor   : res.2.2.1.cursor = min (p + len) (walk.length * b.clusterSize) % 2 ^ 32
  current  : ∀ c, walk[min (p + len) (walk.length * b.clusterSize) / b.clusterSize]? = some c →
    res.2.2.1.currentCluster = c

theorem Seen.trans {d' d'' : FatData} {f' f'' : FileData} (h : Seen disk b root d f d' f')
    (h' : Seen disk b root d' f' d'' f'') (hv : OnVolume disk b root d'') :
    Seen disk b root d f d'' f'' := by
  rcases h' with hm | ⟨hsame', hcur'⟩
  · exact .inl hm
  rcases h with hm | ⟨hsame, hcur⟩
  · exact .inl { hv with fatbuf := fun lba => hsame'.loaded (hm.fatbuf lba) }
  · exact .inr ⟨⟨hsame'.1.trans hsame.1, hsame'.2.trans hsame.2⟩, hcur'.trans hcur⟩

section

variable {d' : FatData} {f' : FileData} {fuel p a : Nat}
  (hround : Round dev disk b root walk fuel d f p len out d' f' a)
include hround

/-- Behind the bytes of a round the loop is in the same situation. -/
theorem Round.reading (h : Reading disk b root walk d f p len)
    (hcur : walk[(p + a) / b.clusterSize]? = some f'.currentCluster) :
    Reading disk b root walk d' f' (p + a) (len - a) := by
  refine ⟨hround.onVolume, fun hle => ?_, hcur, by rw [hround.file]⟩
  rcases hround.seen with hm | ⟨hsame, hcur'⟩
  · exact hm.fatbuf _
  · have hmod : (p + a) % b.clusterSize ≤ p % b.clusterSize + a := by
      rw [← Nat.mod_add_mod]
      exact Nat.mod_le _ _
    rw [hcur']
    exact hsame.loaded (h.loaded (by have := hround.bounds; omega))

/-- After a round the rest is read. -/
theorem Round.readOn {res : VlStatus × FatData × FileData × List UInt8}
    (h : ReadOn disk b root walk d' f' (p + a) (len - a)
      (out ++ ((walkBytes disk b walk).drop p).take a) res) :
    ReadOn disk b root walk d f p len out res := by
  have hlen : a + (len - a) = len := Nat.add_sub_cancel' hround.bounds.2
  obtain ⟨hstatus, hv, hseen, hbytes, hsize, hhead, hcursor, hcurrent⟩ := h
  rw [Nat.add_assoc, hlen] at hcursor hcurrent
  rw [hround.file] at hsize hhead
  refine ⟨hstatus, hv, hround.seen.trans hseen hv, ?_, hsize, hhead, hcursor, hcurrent⟩
  rw [hbytes, List.append_assoc, ← List.drop_drop, ← List.take_add, hlen]

/-- A round ends with the walk. -/
theorem Round.readOn_end (hb : b.WellFormed) (hend : p + a = walk.length * b.clusterSize) :
    ReadOn disk b root walk d f p len out
      (.success, d', f', out ++ ((walkBytes disk b walk).drop p).take a) := by
  have hlen := hround.bounds
  have hmin : min (p + len) (walk.length * b.clusterSize) = p + a := by omega
  have hall : (walkBytes disk b walk).length = p + a := by rw [length_walkBytes, hend]
  refine ⟨rfl, hround.onVolume, hround.seen, ?_, by rw [hround.file], by rw [hround.file],
    by rw [hmin, hround.file], fun c hget => ?_⟩
  · rw [List.take_of_length_le (by rw [List.length_drop, hall]; omega),
      List.take_of_length_le (by rw [List.length_drop, hall]; omega)]
  · rw [hmin, hend, Nat.mul_div_cancel _ hb.clusterSize_pos, List.getElem?_eq_none le_rfl] at hget
    cases hget

end

/-- **The loop of `read` reads along the walk.** -/
theorem readLoop_on (hdev : dev.Holds disk) (hb : b.WellFormed) (hw : Walk disk b walk)
    (hvalid : ∀ c ∈ walk, ValidCluster b c) (hmax : ∀ c ∈ walk, c ≤ b.fatType.maxCluster)
    (fuel : Nat) {p : Nat} (h : Reading disk b root walk d f p len) (hfuel : len < fuel) :
    ∃ res, readLoop dev fuel d f len out = some res ∧
      ReadOn disk b root walk d f p len out res := by
  induction fuel generalizing d f p len out with
  | zero => omega
  | succ fuel ih =>
    rcases Nat.eq_zero_or_pos len with rfl | hpos
    · refine ⟨(.success, d, f, out), by rw [readLoop, if_pos rfl], rfl, h.onVolume,
        .inr ⟨⟨rfl, rfl⟩, rfl⟩, by simp, rfl, rfl, ?_, fun c hc => ?_⟩
      all_goals
        obtain ⟨hi, -⟩ := List.getElem?_eq_some_iff.mp h.current
        have hle := (Nat.div_lt_iff_lt_mul hb.clusterSize_pos).mp hi
      · rw [h.cursor, Nat.add_zero, Nat.min_eq_left hle.le]
      · rw [Nat.add_zero, Nat.min_eq_left hle.le] at hc
        exact Option.some.inj (h.current.symm.trans hc)
    obtain ⟨d', f', a, hround⟩ :
        ∃ d' f' a, Round dev disk b root walk fuel d f p len out d' f' a := by
      by_cases hfast : p % b.clusterSize = 0 ∧ len ≥ b.clusterSize * 2
      · exact h.run hdev hb hw hvalid hmax fuel hfast.1 hfast.2
      · exact h.part hdev hb hw hvalid hmax fuel hpos hfast
    rcases hround.goesOn with ⟨hcur, hloop⟩ | ⟨hend, hloop⟩
    · obtain ⟨res, hres, hon⟩ := ih (hround.reading h hcur) (by have := hround.bounds; omega)
      exact ⟨res, hloop.trans hres, hround.readOn hon⟩
    · exact ⟨_, hloop, hround.readOn_end hb hend⟩

end Loop

end FoliOS.Vellum.Fat
