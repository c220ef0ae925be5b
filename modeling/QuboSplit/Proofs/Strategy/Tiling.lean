import QuboSplit.Proofs.Decomposer

/-!
# Runs of a tiling

Once the tiles are known, the call that comes `k`-th after that is answered from tile `k`, counted
round and round if the tiling loops (`replies_of_at`). The position moves on whether or not the
selection succeeds, and preparing once more does not move it.
-/

namespace QuboSplit

variable {α : Type} [Scalar α]

/-- A call to a strategy with a state. -/
inductive Call (α : Type) [Scalar α] where
  | setup (s : State α)
  | select (s : State α)

namespace Call

def state : Call α → State α
  | setup s => s
  | select s => s

@[simp] theorem state_setup (s : State α) : (setup s).state = s := rfl

@[simp] theorem state_select (s : State α) : (select s).state = s := rfl

/-- The states on which the calls ask for a selection. -/
def asked : List (Call α) → List (State α)
  | [] => []
  | setup _ :: rest => asked rest
  | select s :: rest => s :: asked rest

theorem mem_of_mem_asked {s : State α} {calls : List (Call α)} (h : s ∈ asked calls) :
    select s ∈ calls := by
  induction calls with
  | nil => exact absurd h List.not_mem_nil
  | cons call rest ih =>
    cases call with
    | setup s' => exact List.mem_cons_of_mem _ (ih h)
    | select s' =>
      rcases List.mem_cons.1 h with rfl | h
      · exact List.mem_cons_self
      · exact List.mem_cons_of_mem _ (ih h)

end Call

namespace Tiling

/-- The memory after a call. -/
def after (c : Tiling) (mem : Memory) : Call α → Memory
  | .setup s => (c.setup mem s).memory
  | .select s => (c.select mem s).memory

theorem after_setup (c : Tiling) (mem : Memory) (s : State α) :
    c.after mem (.setup s) = (c.setup mem s).memory := rfl

theorem after_select (c : Tiling) (mem : Memory) (s : State α) :
    c.after mem (.select s) = (c.select mem s).memory := rfl

/-- The memory after calls one after another. -/
def memoryAfter (c : Tiling) (mem : Memory) (calls : List (Call α)) : Memory :=
  calls.foldl c.after mem

/-- What the selections among the calls yield. -/
def replies (c : Tiling) : Memory → List (Call α) → List (Except Fault (Selection α))
  | _, [] => []
  | mem, .setup s :: rest => c.replies (c.setup mem s).memory rest
  | mem, .select s :: rest => (c.select mem s).result :: c.replies (c.select mem s).memory rest

theorem replies_setup (c : Tiling) (mem : Memory) (s : State α) (rest : List (Call α)) :
    c.replies mem (.setup s :: rest) = c.replies (c.after mem (.setup s)) rest := rfl

theorem replies_select (c : Tiling) (mem : Memory) (s : State α) (rest : List (Call α)) :
    c.replies mem (.select s :: rest) =
      (c.select mem s).result :: c.replies (c.after mem (.select s)) rest := rfl

variable {c : Tiling} {tiles : List Tile} {k : Nat} {mem : Memory} {s : State α}

/-! ### Preparing -/

theorem setup_of_known (h : mem.tiles = some tiles) (s : State α) :
    c.setup mem s = ⟨.ok (), mem, []⟩ := by
  unfold setup
  rw [h]

theorem setup_of_ok (h : mem.tiles = none)
    (htiles : c.lattice.tiles c.tile s.problem.model.labels = .ok tiles) :
    (c.setup mem s).result = .ok () ∧ (c.setup mem s).memory = ⟨some tiles, 0⟩ := by
  unfold setup
  rw [h, htiles]
  exact ⟨rfl, rfl⟩

theorem setup_of_error {fault : Fault} (h : mem.tiles = none)
    (htiles : c.lattice.tiles c.tile s.problem.model.labels = .error fault) :
    c.setup mem s = ⟨.error fault, mem, []⟩ := by
  unfold setup
  rw [h, htiles]

theorem select_of_setup (hok : (c.setup mem s).result = .ok ())
    (htiles : (c.setup mem s).memory.tiles = some tiles) :
    (c.select mem s).result = (c.selectTile (c.setup mem s).memory tiles s).result ∧
      (c.select mem s).memory = (c.selectTile (c.setup mem s).memory tiles s).memory := by
  unfold select
  dsimp only
  rw [hok, htiles]
  exact ⟨rfl, rfl⟩

theorem select_of_setup_error {fault : Fault} (hsetup : c.setup mem s = ⟨.error fault, mem, []⟩) :
    c.select mem s = ⟨.error fault, mem, []⟩ := by
  unfold select
  rw [hsetup]

theorem select_of_error {fault : Fault} (h : mem.tiles = none)
    (htiles : c.lattice.tiles c.tile s.problem.model.labels = .error fault) :
    c.select mem s = ⟨.error fault, mem, []⟩ :=
  select_of_setup_error (setup_of_error h htiles)

/-- Preparing changes nothing if it fails, and else the tiles are known. -/
theorem setup_cases (c : Tiling) (mem : Memory) (s : State α) :
    (mem.tiles = none ∧ ∃ fault, c.setup mem s = ⟨.error fault, mem, []⟩) ∨
      ∃ tiles, (c.setup mem s).result = .ok () ∧ (c.setup mem s).memory.tiles = some tiles := by
  cases hmem : mem.tiles with
  | some tiles =>
    rw [setup_of_known hmem]
    exact Or.inr ⟨tiles, rfl, hmem⟩
  | none =>
    cases htiles : c.lattice.tiles c.tile s.problem.model.labels with
    | error fault => exact Or.inl ⟨rfl, fault, setup_of_error hmem htiles⟩
    | ok tiles =>
      obtain ⟨hok, hmemory⟩ := setup_of_ok hmem htiles
      exact Or.inr ⟨tiles, hok, congrArg Memory.tiles hmemory⟩

/-! ### Where known tiles come from -/

/-- Every tile that is known has the property. -/
def Memory.All (P : Tile → Prop) (mem : Memory) : Prop :=
  ∀ tiles, mem.tiles = some tiles → ∀ t ∈ tiles, P t

theorem Memory.all_fresh (P : Tile → Prop) : Memory.fresh.All P := nofun

variable {P : Tile → Prop}

/-- Preparing finds tiles of the problem at hand, unless they are known. -/
theorem all_setup (h : mem.All P)
    (hnew : ∀ tiles, c.lattice.tiles c.tile s.problem.model.labels = .ok tiles →
      ∀ t ∈ tiles, P t) : (c.setup mem s).memory.All P := by
  cases hmem : mem.tiles with
  | some tiles => rwa [setup_of_known hmem]
  | none =>
    cases htiles : c.lattice.tiles c.tile s.problem.model.labels with
    | error fault => rwa [setup_of_error hmem htiles]
    | ok tiles =>
      rw [(setup_of_ok hmem htiles).2]
      rintro _ ⟨⟩
      exact hnew tiles htiles

/-- Selecting finds no tiles but by preparing. -/
theorem tiles_select (c : Tiling) (mem : Memory) (s : State α) :
    (c.select mem s).memory.tiles = (c.setup mem s).memory.tiles := by
  unfold select
  dsimp only
  split
  · rfl
  · rw [Step.memory_after]
    unfold selectTile
    split <;> rfl

theorem all_after (h : mem.All P) {call : Call α}
    (hnew : ∀ tiles, c.lattice.tiles c.tile call.state.problem.model.labels = .ok tiles →
      ∀ t ∈ tiles, P t) : (c.after mem call).All P := by
  cases call with
  | setup s => exact all_setup h hnew
  | select s =>
    unfold Memory.All
    rw [after_select, tiles_select]
    exact all_setup h hnew

theorem all_memoryAfter (h : mem.All P) {calls : List (Call α)}
    (hnew : ∀ call ∈ calls, ∀ tiles,
      c.lattice.tiles c.tile call.state.problem.model.labels = .ok tiles → ∀ t ∈ tiles, P t) :
    (c.memoryAfter mem calls).All P := by
  induction calls generalizing mem with
  | nil => exact h
  | cons call rest ih =>
    obtain ⟨hcall, hrest⟩ := List.forall_mem_cons.1 hnew
    exact ih (all_after h hcall) hrest

/-! ### The tile whose turn it is -/

/-- The number of the tile whose turn call `k` is. -/
def turn (c : Tiling) (count k : Nat) : Nat := if c.loop then k % count else k

theorem turn_of_loop (h : c.loop = true) (count k : Nat) : c.turn count k = k % count := if_pos h

theorem turn_of_not_loop (h : c.loop = false) (count k : Nat) : c.turn count k = k :=
  if_neg (h ▸ Bool.false_ne_true)

/-- What call `k` yields. -/
def answer (c : Tiling) (tiles : List Tile) (k : Nat) (s : State α) :
    Except Fault (Selection α) :=
  match tiles[c.turn tiles.length k]? with
  | none => .ok .endOfStream
  | some tile => s.selectAtBest tile.embedding.labels (some tile.embedding)

/-- The tiles are known, and the next one is that of call `k`. -/
structure Memory.At (c : Tiling) (tiles : List Tile) (k : Nat) (mem : Memory) : Prop where
  tiles_eq : mem.tiles = some tiles
  upcoming_eq : c.upcoming tiles mem.next =
    tiles[c.turn tiles.length k]?.map (c.turn tiles.length k, ·)

theorem Memory.at_zero (c : Tiling) (tiles : List Tile) : Memory.At c tiles 0 ⟨some tiles, 0⟩ where
  tiles_eq := rfl
  upcoming_eq := by
    have hturn : c.turn tiles.length 0 = 0 := by
      unfold turn
      rw [Nat.zero_mod, ite_self]
    rw [hturn]
    unfold upcoming
    cases tiles with
    | nil => simp
    | cons first rest => rfl

theorem upcoming_succ (h : c.turn tiles.length k < tiles.length) :
    c.upcoming tiles (c.turn tiles.length k + 1) =
      tiles[c.turn tiles.length (k + 1)]?.map (c.turn tiles.length (k + 1), ·) := by
  unfold upcoming turn at *
  by_cases hloop : c.loop = true
  · rw [if_pos hloop] at h
    rw [if_pos hloop, if_pos hloop, if_pos hloop, ← Nat.mod_add_mod k tiles.length 1]
    by_cases hlt : k % tiles.length + 1 < tiles.length
    · rw [Nat.mod_eq_of_lt hlt, List.getElem?_eq_getElem hlt]
      rfl
    · have hlast : k % tiles.length + 1 = tiles.length := by omega
      rw [hlast, Nat.mod_self, List.getElem?_eq_none (le_refl _), List.head?_eq_getElem?]
  · rw [if_neg hloop, if_neg hloop, if_neg hloop]
    cases tiles[k + 1]? <;> rfl

theorem getElem?_turn_succ (h : tiles[c.turn tiles.length k]? = none) :
    tiles[c.turn tiles.length (k + 1)]? = none := by
  rw [List.getElem?_eq_none_iff] at h ⊢
  unfold turn at *
  by_cases hloop : c.loop = true
  · rw [if_pos hloop] at h ⊢
    rcases Nat.eq_zero_or_pos tiles.length with hnone | hpos
    · omega
    · exact absurd (Nat.mod_lt k hpos) (not_lt.2 h)
  · rw [if_neg hloop] at h ⊢
    omega

/-- One selection answers from the tile whose turn it is, and passes the turn on. -/
theorem selectTile_of_at (h : mem.At c tiles k) (s : State α) :
    (c.selectTile mem tiles s).result = c.answer tiles k s ∧
      (c.selectTile mem tiles s).memory.At c tiles (k + 1) := by
  have hupcoming := h.upcoming_eq
  unfold selectTile answer
  cases htile : tiles[c.turn tiles.length k]? with
  | none =>
    rw [htile] at hupcoming
    rw [hupcoming]
    refine ⟨rfl, h.tiles_eq, ?_⟩
    rw [getElem?_turn_succ htile]
    exact hupcoming
  | some tile =>
    rw [htile] at hupcoming
    rw [hupcoming]
    refine ⟨rfl, h.tiles_eq, ?_⟩
    exact upcoming_succ (List.getElem?_eq_some_iff.1 htile).1

theorem select_of_at (h : mem.At c tiles k) (s : State α) :
    (c.select mem s).result = c.answer tiles k s ∧
      (c.after mem (.select s)).At c tiles (k + 1) := by
  rw [after_select]
  have hsetup := setup_of_known (c := c) h.tiles_eq s
  obtain ⟨hresult, hmemory⟩ :=
    select_of_setup (by rw [hsetup]) ((congrArg (·.memory.tiles) hsetup).trans h.tiles_eq)
  rw [hresult, hmemory, hsetup]
  exact selectTile_of_at h s

/-- The first selection finds the tiles and answers from the first one. -/
theorem select_of_unknown (h : mem.tiles = none)
    (htiles : c.lattice.tiles c.tile s.problem.model.labels = .ok tiles) :
    (c.select mem s).result = c.answer tiles 0 s ∧ (c.after mem (.select s)).At c tiles 1 := by
  rw [after_select]
  obtain ⟨hok, hprepared⟩ := setup_of_ok h htiles
  obtain ⟨hresult, hmemory⟩ := select_of_setup hok (congrArg Memory.tiles hprepared)
  rw [hresult, hmemory, hprepared]
  exact selectTile_of_at (Memory.at_zero c tiles) s

/-! ### Whole runs -/

/-- From known tiles on, the calls that ask for a selection are answered one tile after another. -/
theorem replies_of_at (h : mem.At c tiles k) (calls : List (Call α)) :
    c.replies mem calls = (Call.asked calls).mapIdx fun i s => c.answer tiles (k + i) s := by
  induction calls generalizing mem k with
  | nil => rfl
  | cons call rest ih =>
    cases call with
    | setup s =>
      rw [replies_setup, after_setup, setup_of_known h.tiles_eq]
      exact ih h
    | select s =>
      obtain ⟨hresult, hnext⟩ := select_of_at h s
      rw [replies_select, hresult, ih hnext]
      show _ = (s :: Call.asked rest).mapIdx _
      rw [List.mapIdx_cons]
      simp only [Nat.add_zero, Nat.add_assoc, Nat.add_comm 1]

/-- The first call that finds the tiles is answered from them, and so are those after it. -/
theorem replies_of_unknown (h : mem.tiles = none) {call : Call α}
    (htiles : c.lattice.tiles c.tile call.state.problem.model.labels = .ok tiles)
    (rest : List (Call α)) :
    c.replies mem (call :: rest) = (Call.asked (call :: rest)).mapIdx (c.answer tiles) := by
  cases call with
  | setup s =>
    rw [replies_setup, after_setup, (setup_of_ok h (Call.state_setup s ▸ htiles)).2,
      replies_of_at (Memory.at_zero c tiles)]
    simp only [Nat.zero_add]
    rfl
  | select s =>
    obtain ⟨hresult, hnext⟩ := select_of_unknown h (Call.state_select s ▸ htiles)
    rw [replies_select, hresult, replies_of_at hnext]
    show _ = (s :: Call.asked rest).mapIdx _
    rw [List.mapIdx_cons]
    simp only [Nat.add_comm 1]

theorem replies_fresh {calls : List (Call α)}
    (htiles : ∀ call ∈ calls,
      c.lattice.tiles c.tile call.state.problem.model.labels = .ok tiles) :
    c.replies .fresh calls = (Call.asked calls).mapIdx (c.answer tiles) := by
  cases calls with
  | nil => rfl
  | cons call rest => exact replies_of_unknown rfl (htiles call List.mem_cons_self) rest

theorem at_after (h : mem.At c tiles k) (call : Call α) : ∃ k, (c.after mem call).At c tiles k := by
  cases call with
  | setup s =>
    rw [after_setup, setup_of_known h.tiles_eq]
    exact ⟨k, h⟩
  | select s => exact ⟨k + 1, (select_of_at h s).2⟩

/-- Known tiles stay. -/
theorem at_memoryAfter (h : mem.At c tiles k) (calls : List (Call α)) :
    ∃ k, (c.memoryAfter mem calls).At c tiles k := by
  induction calls generalizing mem k with
  | nil => exact ⟨k, h⟩
  | cons call rest ih =>
    obtain ⟨next, hnext⟩ := at_after h call
    exact ih hnext

theorem at_after_of_ok (h : mem.tiles = none) {call : Call α}
    (htiles : c.lattice.tiles c.tile call.state.problem.model.labels = .ok tiles) :
    ∃ k, (c.after mem call).At c tiles k := by
  cases call with
  | setup s =>
    rw [after_setup, (setup_of_ok h (Call.state_setup s ▸ htiles)).2]
    exact ⟨0, Memory.at_zero c tiles⟩
  | select s => exact ⟨1, (select_of_unknown h htiles).2⟩

theorem after_of_error (h : mem.tiles = none) {call : Call α} {fault : Fault}
    (htiles : c.lattice.tiles c.tile call.state.problem.model.labels = .error fault) :
    c.after mem call = mem := by
  cases call with
  | setup s => exact congrArg Step.memory (setup_of_error h htiles)
  | select s => exact congrArg Step.memory (select_of_error h htiles)

/-- A run of a new tiling fails with every call, unless it finds tiles with one; the calls from that
one on are answered from them. -/
theorem run_cases (c : Tiling) (calls : List (Call α)) :
    ∃ faults : List Fault,
      (c.memoryAfter .fresh calls = .fresh ∧ c.replies .fresh calls = faults.map .error) ∨
      ∃ tiles k, (c.memoryAfter .fresh calls).At c tiles k ∧
        c.replies .fresh calls = faults.map .error ++
          ((Call.asked calls).drop faults.length).mapIdx (c.answer tiles) := by
  induction calls with
  | nil => exact ⟨[], Or.inl ⟨rfl, rfl⟩⟩
  | cons call rest ih =>
    cases htiles : c.lattice.tiles c.tile call.state.problem.model.labels with
    | ok tiles =>
      have hunknown : Memory.fresh.tiles = none := rfl
      obtain ⟨k, hat⟩ := at_after_of_ok hunknown htiles
      obtain ⟨k, hat⟩ := at_memoryAfter hat rest
      exact ⟨[], Or.inr ⟨tiles, k, hat, replies_of_unknown rfl htiles rest⟩⟩
    | error fault =>
      obtain ⟨faults, ih⟩ := ih
      have hafter : c.after .fresh call = .fresh := after_of_error rfl htiles
      have hmemory : c.memoryAfter .fresh (call :: rest) = c.memoryAfter .fresh rest :=
        congrArg (c.memoryAfter · rest) hafter
      rw [hmemory]
      cases call with
      | setup s =>
        rw [replies_setup, hafter]
        exact ⟨faults, ih⟩
      | select s =>
        rw [replies_select, hafter, select_of_error rfl (Call.state_select s ▸ htiles)]
        refine ⟨fault :: faults, ih.imp ?_ ?_⟩
        · rintro ⟨hfresh, hreplies⟩
          exact ⟨hfresh, congrArg (.error fault :: ·) hreplies⟩
        · rintro ⟨tiles, k, hat, hreplies⟩
          exact ⟨tiles, k, hat, congrArg (.error fault :: ·) hreplies⟩

end Tiling

/-! ### A path through two cells -/

/-- Three variables at zero, with their energy. -/
def pathZeros : Entry Binary64 :=
  ⟨.ofList [(.number 0, .ofInt 0), (.number 1, .ofInt 0), (.number 3, .ofInt 0)], .ofInt 0⟩

theorem pathZeros_admitted : ∀ e ∈ [pathZeros], e.foreign? .binary = none := by decide +kernel

/-- A path along edges of a lattice of two cells, one of them covered in part. -/
def pathEdits : List (Edit Binary64) :=
  [.setLinear (.number 0) (.ofInt (-1)), .setQuadratic (.number 0) (.number 1) (.ofInt 3),
    .setQuadratic (.number 3) (.number 1) (.ofInt 2)]

def latticePath : State Binary64 where
  problem := ⟨0, .ofEdits .binary pathEdits⟩
  samples := ⟨.binary, [pathZeros], pathZeros_admitted⟩

/-- The same problem without a sample. -/
def unsampledPath : State Binary64 := latticePath.withSamples ⟨.binary, [], by simp⟩

/-- Cuts the lattice into its two cells. -/
def cellTiles (loop : Bool) : Tiling :=
  ⟨⟨1, 1, 1, Nat.one_pos, Nat.one_pos, Nat.one_pos⟩, loop,
    ⟨1, 2, 1, Nat.one_pos, Nat.two_pos, Nat.one_pos⟩, Nat.le_refl 1⟩

/-- The tiles of the path. -/
def pathTiles : List Tile :=
  [⟨⟨0, 0, 0⟩, [(0, .number 0), (1, .number 1)]⟩, ⟨⟨0, 1, 0⟩, [(1, .number 3)]⟩]

theorem tiles_latticePath (loop : Bool) :
    (cellTiles loop).lattice.tiles (cellTiles loop).tile latticePath.problem.model.labels =
      .ok pathTiles := by
  cases loop <;> decide +kernel

theorem bestSample_latticePath : latticePath.bestSample = .ok pathZeros.sample := by decide +kernel

theorem assigned_latticePath :
    ∀ v ∈ latticePath.problem.model.labels, (pathZeros.sample.get? v).isSome := by
  decide +kernel

end QuboSplit
