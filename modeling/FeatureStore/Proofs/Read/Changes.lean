import FeatureStore.Proofs.Read.Tracking
import FeatureStore.Proofs.Table.Ancestry
import Mathlib.Tactic

/-!
# What the counters count

The counters after a history of rows, told from the history alone. A row changes a table when it
gives the table another key than the row before it did, where only the rows since the last change
of a table above count (`ChangesAt`, `InWindow`). The counter of a table is the number of its
changes in that window (`changeCount`).

One row does to the counter of a table what its own key and the changes above say
(`Multiplicities.counter_read`), so a counter is determined by the keys of its table and by the
cuts of its window, and what it has counted can be told for any such sequence (`Counted.next`). A
row advances a counter exactly when it changes the table in the sense of the history
(`changedAbove_iff`), by induction from the root down.
-/

set_option autoImplicit false

namespace FeatureStore

/-! ## Keys and cuts -/

section Window

variable (key : Nat → Option String) (cut : Nat → Prop)

/-- After `n` rows, row `i` does not lie before the last cut. -/
def InWindow (n i : Nat) : Prop := i < n ∧ ∀ k, i < k → k < n → ¬ cut k

/-- Of the rows in front of row `i`, row `j` is the last one with a key, and it is in the window
after `n` rows. -/
def IsPrevious (n i j : Nat) : Prop :=
  j < i ∧ InWindow cut n j ∧ (key j).isSome ∧ ∀ k, j < k → k < i → key k = none

/-- Row `i` has a key, another one than the previous row with a key in its window, if there is such
a row. -/
def IsChange (i : Nat) : Prop :=
  (key i).isSome ∧ ∀ j, IsPrevious key cut (i + 1) i j → key j ≠ key i

open Classical in
/-- The number of changes in the window after `n` rows. -/
noncomputable def countChanges (n : Nat) : Nat :=
  ((Finset.range n).filter fun i => InWindow cut n i ∧ IsChange key cut i).card

end Window

/-! ## One counter -/

namespace Counter

open Classical in
/-- A counter starts anew at a cut. -/
noncomputable def clear (c : Counter) (cut : Prop) : Counter := if cut then zero else c

/-- A counter advances with a new key. -/
def enter (c : Counter) : Option String → Counter
  | none => c
  | some key => if c.last = some key then c else ⟨some key, c.count + 1⟩

theorem clear_of {c : Counter} {cut : Prop} (h : cut) : c.clear cut = zero := if_pos h

theorem clear_of_not {c : Counter} {cut : Prop} (h : ¬ cut) : c.clear cut = c := if_neg h

theorem last_clear {c : Counter} {cut : Prop} {k : String} :
    (c.clear cut).last = some k ↔ ¬ cut ∧ c.last = some k := by
  by_cases h : cut
  · rw [clear_of h]
    simp [zero, h]
  · rw [clear_of_not h]
    simp [h]

theorem clear_congr (c : Counter) {cut cut' : Prop} (h : cut ↔ cut') : c.clear cut = c.clear cut' :=
  congrArg c.clear (propext h)

theorem clear_clear (c : Counter) (cut cut' : Prop) :
    (c.clear cut).clear cut' = c.clear (cut ∨ cut') := by
  by_cases h' : cut'
  · rw [clear_of h', clear_of (Or.inr h')]
  · rw [clear_of_not h', clear_congr c (or_iff_left h')]

theorem enter_of_last {c : Counter} {k : String} (h : c.last = some k) : c.enter (some k) = c :=
  if_pos h

theorem enter_of_new {c : Counter} {k : String} (h : c.last ≠ some k) :
    c.enter (some k) = ⟨some k, c.count + 1⟩ :=
  if_neg h

theorem clear_zero (cut : Prop) : zero.clear cut = zero := ite_self _

theorem last_enter_some (c : Counter) (k : String) : (c.enter (some k)).last = some k := by
  by_cases h : c.last = some k
  · rw [enter_of_last h, h]
  · rw [enter_of_new h]

theorem le_count_enter (c : Counter) (key : Option String) : c.count ≤ (c.enter key).count := by
  cases key with
  | none => exact Nat.le_refl _
  | some k =>
    by_cases h : c.last = some k
    · exact Nat.le_of_eq (congrArg count (enter_of_last h).symm)
    · rw [enter_of_new h]
      exact Nat.le_succ _

end Counter

section Counted

variable {key : Nat → Option String} {cut : Nat → Prop} {n j i : Nat} {c : Counter}

theorem inWindow_succ (h : i < n) : InWindow cut (n + 1) i ↔ ¬ cut n ∧ InWindow cut n i := by
  constructor
  · rintro ⟨-, hnone⟩
    exact ⟨hnone n h (Nat.lt_succ_self n), h, fun k hk hkn => hnone k hk (Nat.lt_succ_of_lt hkn)⟩
  · rintro ⟨hcut, -, hnone⟩
    refine ⟨Nat.lt_succ_of_lt h, fun k hk hkn => ?_⟩
    rcases Nat.lt_succ_iff_lt_or_eq.1 hkn with hkn | rfl
    · exact hnone k hk hkn
    · exact hcut

theorem inWindow_last (n : Nat) : InWindow cut (n + 1) n :=
  ⟨Nat.lt_succ_self n, fun _ hk hkn => absurd hkn (by omega)⟩

theorem isPrevious_succ_window :
    IsPrevious key cut (n + 1) n j ↔ ¬ cut n ∧ IsPrevious key cut n n j := by
  constructor
  · rintro ⟨hj, hwindow, hkey, hnone⟩
    obtain ⟨hcut, hwindow⟩ := (inWindow_succ hj).1 hwindow
    exact ⟨hcut, hj, hwindow, hkey, hnone⟩
  · rintro ⟨hcut, hj, hwindow, hkey, hnone⟩
    exact ⟨hj, (inWindow_succ hj).2 ⟨hcut, hwindow⟩, hkey, hnone⟩

/-- A row with a key is itself the last one with a key. -/
theorem isPrevious_succ_of_isSome (h : (key n).isSome) :
    IsPrevious key cut (n + 1) (n + 1) j ↔ j = n := by
  constructor
  · rintro ⟨hj, -, -, hnone⟩
    by_contra hne
    rw [hnone n (by omega) (Nat.lt_succ_self n)] at h
    cases h
  · rintro rfl
    exact ⟨Nat.lt_succ_self j, inWindow_last j, h, fun k hk hkn => absurd hkn (by omega)⟩

/-- A row without a key leaves the last one with a key. -/
theorem isPrevious_succ_of_none (h : key n = none) :
    IsPrevious key cut (n + 1) (n + 1) j ↔ IsPrevious key cut (n + 1) n j := by
  constructor
  · rintro ⟨hj, hwindow, hkey, hnone⟩
    have hne : j ≠ n := by
      rintro rfl
      rw [h] at hkey
      cases hkey
    exact ⟨by omega, hwindow, hkey, fun k hk hkn => hnone k hk (Nat.lt_succ_of_lt hkn)⟩
  · rintro ⟨hj, hwindow, hkey, hnone⟩
    refine ⟨Nat.lt_succ_of_lt hj, hwindow, hkey, fun k hk hkn => ?_⟩
    rcases Nat.lt_succ_iff_lt_or_eq.1 hkn with hkn | rfl
    · exact hnone k hk hkn
    · exact h

open Classical in
/-- One more row starts the count anew at a cut, and counts if it is a change. -/
theorem countChanges_succ : countChanges key cut (n + 1) =
    (if cut n then 0 else countChanges key cut n) + if IsChange key cut n then 1 else 0 := by
  have hbefore : ((Finset.range n).filter fun i =>
      InWindow cut (n + 1) i ∧ IsChange key cut i).card =
        if cut n then 0 else countChanges key cut n := by
    split
    · rename_i hcut
      refine Finset.card_eq_zero.2 (Finset.filter_eq_empty_iff.2 fun i hi h => ?_)
      exact ((inWindow_succ (Finset.mem_range.1 hi)).1 h.1).1 hcut
    · rename_i hcut
      rw [countChanges]
      refine congrArg Finset.card (Finset.filter_congr fun i hi => ?_)
      rw [inWindow_succ (Finset.mem_range.1 hi)]
      simp [hcut]
  rw [countChanges, Finset.range_add_one, Finset.filter_insert, ← hbefore]
  by_cases hchange : IsChange key cut n
  · rw [if_pos ⟨inWindow_last n, hchange⟩, if_pos hchange, Finset.card_insert_of_notMem]
    simp
  · rw [if_neg fun h => hchange h.2, if_neg hchange]
    rfl

/-- A counter has counted the changes of the first `n` rows. -/
structure Counted (key : Nat → Option String) (cut : Nat → Prop) (n : Nat) (c : Counter) :
    Prop where
  last_iff : ∀ k, c.last = some k ↔ ∃ j, IsPrevious key cut n n j ∧ key j = some k
  count_eq : c.count = countChanges key cut n

theorem counted_zero : Counted key cut 0 Counter.zero where
  last_iff k := ⟨fun h => by simp [Counter.zero] at h, fun ⟨j, hj, _⟩ => absurd hj.1 (by omega)⟩
  count_eq := by simp [countChanges, Counter.zero]

namespace Counted

theorem last_clear_iff (h : Counted key cut n c) (k : String) :
    (c.clear (cut n)).last = some k ↔ ∃ j, IsPrevious key cut (n + 1) n j ∧ key j = some k := by
  rw [Counter.last_clear, h.last_iff]
  simp only [isPrevious_succ_window, and_assoc, exists_and_left]

/-- A row is a change exactly if the counter has another key. -/
theorem isChange_iff (h : Counted key cut n c) :
    IsChange key cut n ↔ ∃ k, key n = some k ∧ (c.clear (cut n)).last ≠ some k := by
  constructor
  · rintro ⟨hsome, hne⟩
    obtain ⟨k, hk⟩ := Option.isSome_iff_exists.1 hsome
    refine ⟨k, hk, fun hlast => ?_⟩
    obtain ⟨j, hj, hkey⟩ := (h.last_clear_iff k).1 hlast
    exact hne j hj (hkey.trans hk.symm)
  · rintro ⟨k, hk, hlast⟩
    refine ⟨by rw [hk]; rfl, fun j hj hkey => hlast ?_⟩
    exact (h.last_clear_iff k).2 ⟨j, hj, hkey.trans hk⟩

/-- Counting one more row. -/
theorem next (h : Counted key cut n c) :
    Counted key cut (n + 1) ((c.clear (cut n)).enter (key n)) := by
  classical
  have hcleared : (c.clear (cut n)).count = if cut n then 0 else countChanges key cut n := by
    rw [← h.count_eq, Counter.clear]
    split <;> rfl
  have hchange := h.isChange_iff
  -- without a key nothing is counted, and a key is if it is not the last one
  rcases hkey : key n with _ | k
  · refine ⟨fun k => ?_, ?_⟩
    · simp only [isPrevious_succ_of_none hkey]
      exact h.last_clear_iff k
    · have hno : ¬ IsChange key cut n := fun hc => by
        rw [IsChange, hkey] at hc
        cases hc.1
      rw [countChanges_succ, if_neg hno, Nat.add_zero, ← hcleared]
      rfl
  · have hsome : (key n).isSome := by
      rw [hkey]
      rfl
    refine ⟨fun k' => ?_, ?_⟩
    · simp only [isPrevious_succ_of_isSome hsome, exists_eq_left, hkey, Counter.last_enter_some]
    · rw [countChanges_succ, ← hcleared]
      by_cases hlast : (c.clear (cut n)).last = some k
      · rw [Counter.enter_of_last hlast, if_neg, Nat.add_zero]
        rw [hchange, hkey]
        rintro ⟨k', hk', hne⟩
        cases hk'
        exact hne hlast
      · rw [Counter.enter_of_new hlast, if_pos (hchange.2 ⟨k, hkey, hlast⟩)]

end Counted

end Counted

/-! ## Histories -/

/-- A row of a table of an arena: a key for each table of its chain. -/
structure Call (a : Arena) where
  table : Nat
  keys : List String
  isTable : table < a.size
  length_keys : keys.length = (a.chain table).length

namespace Call

variable {a : Arena}

/-- The tables from the root down, each with the key of its row. -/
def visits (c : Call a) : List (Nat × String) := (a.chain c.table).zip c.keys

/-- The key that a row gives a table; none if the table is not on its chain. -/
def key? (c : Call a) (t : Nat) : Option String := c.visits.lookup t

theorem tables_visits (c : Call a) : c.visits.map Prod.fst = a.chain c.table :=
  List.map_fst_zip (Nat.le_of_eq c.length_keys.symm)

theorem pairwise_visits (c : Call a) : c.visits.Pairwise fun v w => a.Above v.1 w.1 := by
  have hchain := a.pairwise_above_chain c.table
  rwa [← c.tables_visits, List.pairwise_map] at hchain

theorem lt_size_of_mem_visits {c : Call a} {v : Nat × String} (h : v ∈ c.visits) :
    v.1 < a.size := by
  have hmem : v.1 ∈ a.chain c.table := by
    rw [← c.tables_visits]
    exact List.mem_map_of_mem h
  exact Arena.lt_size_of_mem_chain c.isTable hmem

/-- A row gives a key to the tables of its chain and to no others. -/
theorem isSome_key?_iff {c : Call a} {t : Nat} : (c.key? t).isSome ↔ t ∈ a.chain c.table := by
  rw [← c.tables_visits, key?, ← Option.ne_none_iff_isSome, Ne, List.lookup_eq_none_iff,
    List.mem_map]
  simp only [bne_iff_ne, not_forall, not_not]
  exact ⟨fun ⟨v, hv, h⟩ => ⟨v, hv, h.symm⟩, fun ⟨v, hv, h⟩ => ⟨v, hv, h.symm⟩⟩

theorem key?_eq_some_iff {c : Call a} {t : Nat} {k : String} :
    c.key? t = some k ↔ (t, k) ∈ c.visits := by
  have hmem : ∀ k', c.key? t = some k' → (t, k') ∈ c.visits := by
    intro k' h
    obtain ⟨before, behind, hvisits, -⟩ := List.lookup_eq_some_iff.1 h
    rw [hvisits]
    exact List.mem_append_right _ List.mem_cons_self
  refine ⟨hmem k, fun h => ?_⟩
  have hsome : (c.key? t).isSome := by
    rw [isSome_key?_iff, ← c.tables_visits]
    exact List.mem_map_of_mem h
  obtain ⟨k', hk'⟩ := Option.isSome_iff_exists.1 hsome
  -- no two rows of a chain are of the same table
  have hnodup : (c.visits.map Prod.fst).Nodup := by
    rw [c.tables_visits]
    exact (a.pairwise_above_chain c.table).imp fun habove => Nat.ne_of_lt habove.2
  have hsame := List.inj_on_of_nodup_map hnodup h (hmem k' hk') rfl
  rw [hk', (Prod.mk.inj hsame).2]

end Call

section History

variable {a : Arena}

/-- The key that call `i` gives the table `t`. -/
def keyAt (calls : List (Call a)) (t i : Nat) : Option String := (calls[i]?).bind fun c => c.key? t

/-- Call `i` changes the table `t`: its key is new in the window that the changes of the tables
above begin. -/
def ChangesAt (calls : List (Call a)) (t i : Nat) : Prop :=
  IsChange (keyAt calls t) (fun k => ∃ p, ∃ _ : p < t, p ∈ a.chain t ∧ ChangesAt calls p k) i
termination_by t

/-- Call `i` changes a table above the table `t`. -/
def ChangedAbove (calls : List (Call a)) (t i : Nat) : Prop :=
  ∃ p, a.Above p t ∧ ChangesAt calls p i

theorem changesAt_iff {calls : List (Call a)} {t i : Nat} :
    ChangesAt calls t i ↔ IsChange (keyAt calls t) (ChangedAbove calls t) i := by
  have hcut : (fun k => ∃ p, ∃ _ : p < t, p ∈ a.chain t ∧ ChangesAt calls p k) =
      ChangedAbove calls t := by
    funext k
    simp only [ChangedAbove, Arena.Above, exists_prop, eq_iff_iff]
    refine exists_congr fun p => ?_
    tauto
  rw [ChangesAt, hcut]

/-- The number of changes of a table since the last change of a table above. -/
noncomputable def changeCount (calls : List (Call a)) (t : Nat) : Nat :=
  countChanges (keyAt calls t) (ChangedAbove calls t) calls.length

end History

/-! ## One row -/

namespace Multiplicities

variable {tree : TableTree} {m : Multiplicities}

/-- A row is read. -/
def read {a : Arena} (m : Multiplicities) (c : Call a) : Multiplicities :=
  (m.track (a.chain c.table) (c.keys.map some)).2

/-- Rows are read one after the other. -/
def readAll {a : Arena} (m : Multiplicities) (calls : List (Call a)) : Multiplicities :=
  calls.foldl read m

theorem IsOf.visitAll {a : Arena} (hm : m.IsOf a) (visits : List (Nat × Option String)) :
    (m.visitAll visits).IsOf a := by
  induction visits generalizing m with
  | nil => exact hm
  | cons v visits ih => exact ih (hm.visit v.1 v.2)

/-- Above the table `t` one of the rows has another key than the one read last. -/
def NewAbove (a : Arena) (m : Multiplicities) (visits : List (Nat × String)) (t : Nat) : Prop :=
  ∃ v ∈ visits, a.Above v.1 t ∧ m.last v.1 ≠ some v.2

theorem newAbove_concat {a : Arena} {visits : List (Nat × String)} {v : Nat × String} {t : Nat} :
    NewAbove a m (visits ++ [v]) t ↔
      NewAbove a m visits t ∨ a.Above v.1 t ∧ m.last v.1 ≠ some v.2 := by
  simp only [NewAbove, List.mem_append, List.mem_singleton, or_and_right, exists_or,
    exists_eq_left]

/-- A row of the table `p` is read: it advances its own counter, and those below start anew. -/
theorem counter_visit (hm : m.IsOf (Arena.ofTree tree)) {p t : Nat}
    (hp : p < (Arena.ofTree tree).size) (ht : t < (Arena.ofTree tree).size) (k : String) :
    (m.visit p (some k)).counter t =
      if t = p then (m.counter p).enter (some k)
      else (m.counter t).clear ((Arena.ofTree tree).Above p t ∧ m.last p ≠ some k) := by
  by_cases hlast : m.last p = some k
  · rw [visit, if_pos hlast, Counter.clear_of_not fun h => h.2 hlast]
    rw [last_eq] at hlast
    split
    · rename_i htp
      rw [htp, Counter.enter_of_last hlast]
    · rfl
  · have hlength : p < m.counters.length := by
      rw [hm.length_eq]
      exact hp
    have hbelow : t ∈ m.arena.descendants p ↔ (Arena.ofTree tree).Above p t := by
      rw [hm.arena_eq, Arena.mem_descendants_iff_above hp ht]
    rw [visit, if_neg hlast, counter_advance hlength, Counter.enter_of_new (by rwa [← last_eq])]
    refine if_congr Iff.rfl rfl ?_
    by_cases hpt : (Arena.ofTree tree).Above p t
    · rw [if_pos (hbelow.2 hpt), Counter.clear_of ⟨hpt, hlast⟩]
    · rw [if_neg fun h => hpt (hbelow.1 h), Counter.clear_of_not fun h => hpt h.1]

/-- What the rows along a chain do to one counter. -/
theorem counter_visitAll (hm : m.IsOf (Arena.ofTree tree)) {t : Nat}
    (ht : t < (Arena.ofTree tree).size) {visits : List (Nat × String)}
    (habove : visits.Pairwise fun v w => (Arena.ofTree tree).Above v.1 w.1)
    (hsize : ∀ v ∈ visits, v.1 < (Arena.ofTree tree).size) :
    (m.visitAll (visits.map fun v => (v.1, some v.2))).counter t =
      ((m.counter t).clear (NewAbove (Arena.ofTree tree) m visits t)).enter (visits.lookup t) := by
  -- row by row from the root down: the rows so far are all of tables above that of the next row
  induction visits using List.reverseRecOn generalizing t with
  | nil =>
    rw [Counter.clear_of_not fun ⟨v, hv, _⟩ => absurd hv List.not_mem_nil]
    rfl
  | append_singleton visits v ih =>
    obtain ⟨p, k⟩ := v
    obtain ⟨hpairs, -, hover⟩ := List.pairwise_append.1 habove
    have hover : ∀ v ∈ visits, (Arena.ofTree tree).Above v.1 p := fun v hv =>
      hover v hv (p, k) List.mem_cons_self
    have hsize' : ∀ v ∈ visits, v.1 < (Arena.ofTree tree).size := fun v hv =>
      hsize v (List.mem_append_left _ hv)
    have hp : p < (Arena.ofTree tree).size :=
      hsize (p, k) (List.mem_append_right _ List.mem_cons_self)
    have hnone : ∀ {t}, p = t ∨ (Arena.ofTree tree).Above p t → visits.lookup t = none := by
      intro t hpt
      rw [List.lookup_eq_none_iff]
      intro v hv
      rw [bne_iff_ne]
      rcases hpt with rfl | hpt
      · exact Ne.symm (Nat.ne_of_lt (hover v hv).2)
      · exact Ne.symm (Nat.ne_of_lt ((hover v hv).trans hpt).2)
    have hread : (m.visitAll (visits.map fun v => (v.1, some v.2))).IsOf (Arena.ofTree tree) :=
      hm.visitAll _
    rw [List.map_append, visitAll_append]
    show ((m.visitAll _).visit p (some k)).counter t = _
    rw [counter_visit hread hp ht, List.lookup_append]
    have hparent : (m.visitAll (visits.map fun v => (v.1, some v.2))).counter p =
        (m.counter p).clear (NewAbove (Arena.ofTree tree) m visits p) := by
      rw [ih hp hpairs hsize', hnone (Or.inl rfl), Counter.enter]
    by_cases htp : t = p
    · subst htp
      have hcut : NewAbove (Arena.ofTree tree) m (visits ++ [(t, k)]) t ↔
          NewAbove (Arena.ofTree tree) m visits t := by
        rw [newAbove_concat, or_iff_left fun h => Nat.lt_irrefl _ h.1.2]
      rw [if_pos rfl, hparent, hnone (Or.inl rfl), Counter.clear_congr _ hcut]
      simp
    · have hlookup : [(p, k)].lookup t = none := by
        rw [List.lookup_eq_none_iff]
        simpa using htp
      rw [if_neg htp, ih ht hpairs hsize', hlookup, Option.or_none]
      by_cases hpt : (Arena.ofTree tree).Above p t
      · rw [hnone (Or.inr hpt), Counter.enter, Counter.enter, Counter.clear_clear]
        refine Counter.clear_congr _ ?_
        -- a new row above the row of the table has made that row new already
        have hnew : NewAbove (Arena.ofTree tree) m visits p →
            NewAbove (Arena.ofTree tree) m visits t :=
          fun ⟨v, hv, hvp, hne⟩ => ⟨v, hv, hvp.trans hpt, hne⟩
        rw [newAbove_concat, last_eq, hparent, Ne, Counter.last_clear, ← last_eq]
        tauto
      · rw [Counter.clear_of_not fun h => hpt h.1]
        have hcut : NewAbove (Arena.ofTree tree) m (visits ++ [(p, k)]) t ↔
            NewAbove (Arena.ofTree tree) m visits t := by
          rw [newAbove_concat, or_iff_left fun h => hpt h.1]
        rw [Counter.clear_congr _ hcut]

theorem read_eq {a : Arena} (m : Multiplicities) (c : Call a) :
    m.read c = m.visitAll (c.visits.map fun v => (v.1, some v.2)) := by
  rw [read, track_eq, Call.visits, List.zip_map_right]
  rfl

theorem IsOf.read {a : Arena} (hm : m.IsOf a) (c : Call a) : (m.read c).IsOf a := by
  rw [read_eq]
  exact hm.visitAll _

theorem IsOf.readAll {a : Arena} (hm : m.IsOf a) (calls : List (Call a)) :
    (m.readAll calls).IsOf a := by
  induction calls generalizing m with
  | nil => exact hm
  | cons c calls ih => exact ih (hm.read c)

/-- What a row does to the counter of a table: it starts anew if the row is new above the table,
and then takes the key of the table. -/
theorem counter_read (hm : m.IsOf (Arena.ofTree tree)) (c : Call (Arena.ofTree tree)) {t : Nat}
    (ht : t < (Arena.ofTree tree).size) : (m.read c).counter t =
      ((m.counter t).clear (NewAbove (Arena.ofTree tree) m c.visits t)).enter (c.key? t) := by
  rw [read_eq]
  exact counter_visitAll hm ht c.pairwise_visits fun v hv => Call.lt_size_of_mem_visits hv

/-! ## All rows -/

section Calls

variable {calls : List (Call (Arena.ofTree tree))} {t n : Nat}

theorem keyAt_eq {a : Arena} {calls : List (Call a)} (hn : n < calls.length) (t : Nat) :
    keyAt calls t n = calls[n].key? t := by
  rw [keyAt, List.getElem?_eq_getElem hn]
  rfl

theorem readAll_take_succ {a : Arena} {calls : List (Call a)} (hn : n < calls.length) :
    m.readAll (calls.take (n + 1)) = (m.readAll (calls.take n)).read calls[n] := by
  rw [List.take_succ_eq_append_getElem hn, readAll, List.foldl_append]
  rfl

/-- A row is new above a table exactly if it changes a table above. -/
theorem changedAbove_iff (hn : n < calls.length)
    (hcounted : ∀ q < (Arena.ofTree tree).size,
      Counted (keyAt calls q) (ChangedAbove calls q) n (m.counter q))
    (ht : t < (Arena.ofTree tree).size) :
    ChangedAbove calls t n ↔ NewAbove (Arena.ofTree tree) m calls[n].visits t := by
  -- from the root down: what is new above a table above is new above the table
  induction t using Nat.strongRecOn with
  | ind t ih =>
    have hchanges : ∀ q < (Arena.ofTree tree).size, ChangesAt calls q n ↔
        ∃ k, (q, k) ∈ calls[n].visits ∧ (ChangedAbove calls q n ∨ m.last q ≠ some k) := by
      intro q hq
      rw [changesAt_iff, (hcounted q hq).isChange_iff]
      simp only [keyAt_eq hn, Call.key?_eq_some_iff, Ne, Counter.last_clear, last_eq]
      refine exists_congr fun k => and_congr_right fun _ => ?_
      tauto
    constructor
    · rintro ⟨q, hqt, hq⟩
      have hsize := Nat.lt_trans hqt.2 ht
      obtain ⟨k, hk, habove | hlast⟩ := (hchanges q hsize).1 hq
      · obtain ⟨v, hv, hvq, hne⟩ := (ih q hqt.2 hsize).1 habove
        exact ⟨v, hv, hvq.trans hqt, hne⟩
      · exact ⟨(q, k), hk, hqt, hlast⟩
    · rintro ⟨⟨q, k⟩, hv, hqt, hne⟩
      exact ⟨q, hqt, (hchanges q (Nat.lt_trans hqt.2 ht)).2 ⟨k, hv, Or.inr hne⟩⟩

/-- After `n` rows every counter has counted their changes. -/
theorem counted_readAll (hn : n ≤ calls.length) : ∀ t < (Arena.ofTree tree).size,
    Counted (keyAt calls t) (ChangedAbove calls t) n
      (((start (Arena.ofTree tree)).readAll (calls.take n)).counter t) := by
  induction n with
  | zero =>
    intro t _
    rw [List.take_zero, readAll, List.foldl_nil, counter_start]
    exact counted_zero
  | succ n ih =>
    intro t ht
    have hbefore := ih (Nat.le_of_succ_le hn)
    rw [readAll_take_succ hn, counter_read ((isOf_start _).readAll _) _ ht,
      ← Counter.clear_congr _ (changedAbove_iff hn hbefore ht), ← keyAt_eq hn]
    exact (hbefore t ht).next

/-- What a row of the history does to the counter of a table. -/
theorem counter_take_succ (hn : n < calls.length) (ht : t < (Arena.ofTree tree).size) :
    ((start (Arena.ofTree tree)).readAll (calls.take (n + 1))).counter t =
      ((((start (Arena.ofTree tree)).readAll (calls.take n)).counter t).clear
        (ChangedAbove calls t n)).enter (keyAt calls t n) := by
  rw [readAll_take_succ hn, counter_read ((isOf_start _).readAll _) _ ht, keyAt_eq hn,
    Counter.clear_congr _ (changedAbove_iff hn (counted_readAll (Nat.le_of_lt hn)) ht)]

/-- As long as no table above changes, a counter does not go back. -/
theorem count_mono {n' : Nat} (hle : n ≤ n') (hn' : n' ≤ calls.length)
    (ht : t < (Arena.ofTree tree).size)
    (hsame : ∀ i, n ≤ i → i < n' → ¬ ChangedAbove calls t i) :
    ((start (Arena.ofTree tree)).readAll (calls.take n)).count t ≤
      ((start (Arena.ofTree tree)).readAll (calls.take n')).count t := by
  induction n', hle using Nat.le_induction with
  | base => exact Nat.le_refl _
  | succ i hi ih =>
    refine Nat.le_trans (ih (Nat.le_of_succ_le hn') fun k hk hki => hsame k hk (by omega)) ?_
    rw [count_eq, count_eq, counter_take_succ hn' ht,
      Counter.clear_of_not (hsame i hi (Nat.lt_succ_self i))]
    exact Counter.le_count_enter _ _

/-- From a change above on, the next row of a table finds its counter at zero. -/
theorem clear_counter_of_changedAbove {i j : Nat} (hle : j ≤ i) (hi : i ≤ calls.length)
    (ht : t < (Arena.ofTree tree).size) (hchanged : ChangedAbove calls t j)
    (hnone : ∀ k, j ≤ k → k < i → keyAt calls t k = none) :
    (((start (Arena.ofTree tree)).readAll (calls.take i)).counter t).clear
      (ChangedAbove calls t i) = Counter.zero := by
  induction i, hle using Nat.le_induction with
  | base => exact Counter.clear_of hchanged
  | succ i hji ih =>
    have hzero := ih (Nat.le_of_succ_le hi) fun k hk hki => hnone k hk (by omega)
    rw [counter_take_succ hi ht, hzero, hnone i hji (Nat.lt_succ_self i), Counter.enter,
      Counter.clear_zero]

/-- The first row of a table after a change above is counted as the first. -/
theorem count_of_changedAbove {i j : Nat} (hle : j ≤ i) (ht : t < (Arena.ofTree tree).size)
    (hchanged : ChangedAbove calls t j) (hkey : (keyAt calls t i).isSome)
    (hnone : ∀ k, j ≤ k → k < i → keyAt calls t k = none) :
    ((start (Arena.ofTree tree)).readAll (calls.take (i + 1))).count t = 1 := by
  obtain ⟨k, hk⟩ := Option.isSome_iff_exists.1 hkey
  have hi : i < calls.length := by
    by_contra hlong
    rw [keyAt, List.getElem?_eq_none (Nat.le_of_not_lt hlong)] at hk
    cases hk
  rw [count_eq, counter_take_succ hi ht,
    clear_counter_of_changedAbove hle (Nat.le_of_lt hi) ht hchanged hnone, hk]
  rfl

open Classical in
/-- A row that does not lead to a table leaves its count, unless it changes a table above. -/
theorem count_of_not_mem_chain {c : Call (Arena.ofTree tree)} (ht : t < (Arena.ofTree tree).size)
    (hc : t ∉ (Arena.ofTree tree).chain c.table) :
    ((start (Arena.ofTree tree)).readAll (calls ++ [c])).count t =
      if ChangedAbove (calls ++ [c]) t calls.length then 0
      else ((start (Arena.ofTree tree)).readAll calls).count t := by
  have hn : calls.length < (calls ++ [c]).length := by simp
  have hnone : keyAt (calls ++ [c]) t calls.length = none := by
    rw [keyAt_eq hn, List.getElem_concat_length rfl, ← Option.not_isSome_iff_eq_none,
      Call.isSome_key?_iff]
    exact hc
  have hstep := counter_take_succ hn ht
  rw [hnone, Counter.enter, List.take_of_length_le (by simp), List.take_left] at hstep
  rw [count_eq, count_eq, hstep]
  by_cases hcut : ChangedAbove (calls ++ [c]) t calls.length
  · rw [Counter.clear_of hcut, if_pos hcut]
    rfl
  · rw [Counter.clear_of_not hcut, if_neg hcut]

/-- The count of a table is the number of its changes. -/
theorem count_readAll (calls : List (Call (Arena.ofTree tree)))
    (ht : t < (Arena.ofTree tree).size) :
    ((start (Arena.ofTree tree)).readAll calls).count t = changeCount calls t := by
  have hcounted := (counted_readAll (Nat.le_refl calls.length) t ht).count_eq
  rwa [List.take_length, ← count_eq] at hcounted

end Calls

open Classical in
/-- The counters count changes. After `reset` and any rows, the count of a table is the number of
its changes since the last change of a table above. It does not go back while no table above
changes, and is one at the first row of the table after such a change; a row that does not lead to
the table leaves it, unless the row changes a table above, which takes it back to zero. The counts
that are given for a row are those of the tables of its chain that may have several rows, from the
root down. -/
theorem counts_changes (tree : TableTree) (m : Multiplicities) (hm : m.arena = Arena.ofTree tree)
    (calls : List (Call (Arena.ofTree tree))) :
    (∀ t < (Arena.ofTree tree).size,
      (m.reset.readAll calls).count t = changeCount calls t ∧
      (∀ more : List (Call (Arena.ofTree tree)),
        (∀ i, calls.length ≤ i → i < (calls ++ more).length →
          ¬ ChangedAbove (calls ++ more) t i) →
        (m.reset.readAll calls).count t ≤ (m.reset.readAll (calls ++ more)).count t) ∧
      (∀ i j, j ≤ i → ChangedAbove calls t j → (keyAt calls t i).isSome →
        (∀ k, j ≤ k → k < i → keyAt calls t k = none) →
        (m.reset.readAll (calls.take (i + 1))).count t = 1) ∧
      ∀ c : Call (Arena.ofTree tree), t ∉ (Arena.ofTree tree).chain c.table →
        (m.reset.readAll (calls ++ [c])).count t =
          if ChangedAbove (calls ++ [c]) t calls.length then 0
          else (m.reset.readAll calls).count t) ∧
    ∀ c : Call (Arena.ofTree tree),
      ((m.reset.readAll calls).track ((Arena.ofTree tree).chain c.table) (c.keys.map some)).1 =
        (((Arena.ofTree tree).chain c.table).filter m.isMultiValued).map
          (changeCount (calls ++ [c])) := by
  have hreset : m.reset = start (Arena.ofTree tree) := by rw [reset, hm]
  rw [hreset]
  refine ⟨fun t ht => ⟨count_readAll calls ht, fun more hsame => ?_,
    fun i j hle hchanged hkey hnone => count_of_changedAbove hle ht hchanged hkey hnone,
    fun c hc => count_of_not_mem_chain ht hc⟩, fun c => ?_⟩
  · have hle : calls.length ≤ (calls ++ more).length := by simp
    have hmono := count_mono hle (Nat.le_refl _) ht hsame
    rwa [List.take_left, List.take_length] at hmono
  · -- counts are read behind the call, so its own changes are among them
    have hread : (((start (Arena.ofTree tree)).readAll calls).read c) =
        (start (Arena.ofTree tree)).readAll (calls ++ [c]) := by
      rw [readAll, readAll, List.foldl_append]
      rfl
    have harena : ((start (Arena.ofTree tree)).readAll (calls ++ [c])).arena = m.arena := by
      rw [hm, ((isOf_start _).readAll _).arena_eq]
    have hmulti : ((start (Arena.ofTree tree)).readAll (calls ++ [c])).isMultiValued =
        m.isMultiValued := by
      funext k
      rw [isMultiValued, isMultiValued, harena]
    show (((start (Arena.ofTree tree)).readAll calls).read c).countsOf _ = _
    rw [hread, countsOf, hmulti]
    refine List.map_congr_left fun k hk => count_readAll _ ?_
    exact Arena.lt_size_of_mem_chain c.isTable (List.mem_filter.1 hk).1

/-- The phones of two addresses: the third phone is the first one of its address, and reading a
single owner in between does not count for phones. -/
theorem counts_changes_phone :
    let tree := (TableTree.ofPaths ["parcel/[id=parcel_id]address/[id=address_id]phone/number",
      "parcel/[id=parcel_id]owner/name"]).toOption.getD default
    let m := start (Arena.ofTree tree)
    ∃ calls : List (Call (Arena.ofTree tree)),
      calls.map (fun c => (c.table, c.keys)) = [(2, ["1", "10", "100"]), (2, ["1", "10", "101"]),
        (3, ["1", "5"]), (1, ["1", "11"]), (2, ["1", "11", "102"])] ∧
      m.arena = Arena.ofTree tree ∧ (m.reset.readAll calls).count 2 = 1 ∧
      changeCount (calls.take 3) 2 = 2 ∧ changeCount calls 2 = 1 ∧ changeCount calls 1 = 2 := by
  intro tree m
  let calls : List (Call (Arena.ofTree tree)) :=
    [⟨2, ["1", "10", "100"], by decide +kernel, by decide +kernel⟩,
      ⟨2, ["1", "10", "101"], by decide +kernel, by decide +kernel⟩,
      ⟨3, ["1", "5"], by decide +kernel, by decide +kernel⟩,
      ⟨1, ["1", "11"], by decide +kernel, by decide +kernel⟩,
      ⟨2, ["1", "11", "102"], by decide +kernel, by decide +kernel⟩]
  have hsize : 1 < (Arena.ofTree tree).size ∧ 2 < (Arena.ofTree tree).size := by decide +kernel
  have hthree := counts_changes tree m rfl (calls.take 3)
  have hfive := counts_changes tree m rfl calls
  have hcount : (m.reset.readAll (calls.take 3)).count 2 = 2 ∧
      (m.reset.readAll calls).count 2 = 1 ∧ (m.reset.readAll calls).count 1 = 2 := by
    decide +kernel
  refine ⟨calls, rfl, rfl, hcount.2.1, ?_, ?_, ?_⟩
  · rw [← (hthree.1 2 hsize.2).1, hcount.1]
  · rw [← (hfive.1 2 hsize.2).1, hcount.2.1]
  · rw [← (hfive.1 1 hsize.1).1, hcount.2.2]

/-- A row that does not lead to a table need not leave its count: the row of an owner of another
parcel takes the count of addresses back to zero. -/
theorem count_of_other_branch : ¬ ∀ (tree : TableTree) (calls : List (Call (Arena.ofTree tree)))
    (c : Call (Arena.ofTree tree)) (t : Nat), t < (Arena.ofTree tree).size →
      t ∉ (Arena.ofTree tree).chain c.table →
        ((start (Arena.ofTree tree)).readAll (calls ++ [c])).count t =
          ((start (Arena.ofTree tree)).readAll calls).count t := by
  intro h
  let tree := (TableTree.ofPaths ["parcel/[id=parcel_id]address/city",
    "parcel/[id=parcel_id]owner/name"]).toOption.getD default
  let address : Call (Arena.ofTree tree) :=
    ⟨1, ["1", "10"], by decide +kernel, by decide +kernel⟩
  let owner : Call (Arena.ofTree tree) := ⟨2, ["2", "7"], by decide +kernel, by decide +kernel⟩
  have hcounts : ((start (Arena.ofTree tree)).readAll [address]).count 1 = 1 ∧
      ((start (Arena.ofTree tree)).readAll [address, owner]).count 1 = 0 := by
    decide +kernel
  have hsame := h tree [address] owner 1 (by decide +kernel) (by decide +kernel)
  rw [hcounts.1, show [address] ++ [owner] = [address, owner] from rfl, hcounts.2] at hsame
  cases hsame

end Multiplicities

end FeatureStore
