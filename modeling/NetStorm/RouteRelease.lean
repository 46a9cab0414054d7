import NetStorm.Node
import Mathlib.Data.List.DropRight
import Mathlib.Tactic.Linarith

/-!
# The route tables on the wire

`route_update` flattens the scheduler's row of paths for one server: `-2` opens a
destination, `-1` closes a path, and placeholder paths are dropped. The `iters == 0`
branch of `ProcessRouteReleaseCommand` rebuilds the table, growing rows and columns
only when a node arrives.
-/
namespace NetStorm.RouteRelease

/-- What `route_update` writes for one destination. -/
def destination (paths : List (List ℕ)) : List ℚ :=
  -2 :: paths.flatMap fun path =>
    if path = [] then [] else path.map (Nat.cast : ℕ → ℚ) ++ [-1]

/-- The vector `route_update` sends: `mid_tp`, then the row of the receiving server,
which has one list of paths per destination. -/
def routeVector (midTp : ℚ) (row : List (List (List ℕ))) : List ℚ :=
  midTp :: row.flatMap destination

/-- The local variables of the decoding loop. -/
structure Decoder where
  row : ℕ
  col : ℕ
  temp : List (List (List ℤ))

/-- One iteration of the decoding loop. A node before the first `-2` would be stored
in row `-1`, outside the vector. -/
def decodeStep (d : Decoder) (x : ℚ) : Option Decoder :=
  if x = -2 then some { d with row := d.row + 1, col := 1 }
  else if x = -1 then some { d with col := d.col + 1 }
  else if d.row = 0 then none
  else
    let temp := d.temp ++ List.replicate (d.row - d.temp.length) []
    let cells := temp.getD (d.row - 1) []
    let cells := cells ++ List.replicate (d.col - cells.length) []
    let cells := cells.modify (d.col - 1) (· ++ [truncInt (x * 2 + 8)])
    some { d with temp := temp.set (d.row - 1) cells }

/-- The `iters == 0` branch of `Van::ProcessRouteReleaseCommand`: the new `mid_tp`
and the new `route[0]`. -/
def parseRoutes : List ℚ → Option (ℚ × List (List (List ℤ)))
  | [] => none
  | midTp :: rest => do
    let d ← rest.foldlM decodeStep ⟨0, 1, []⟩
    some (midTp, d.temp)

/-- A row as the receiver keeps it: the non-empty paths, as node ids. -/
def received (paths : List (List ℕ)) : List (List ℤ) :=
  (paths.filter (· ≠ [])).map (List.map serverRankToID)

/-- The rows up to the last one that is not empty. -/
def trim (rows : List (List (List ℤ))) : List (List (List ℤ)) :=
  rows.rdropWhile List.isEmpty

theorem trim_append_replicate (rows : List (List (List ℤ))) :
    trim rows ++ List.replicate (rows.length - (trim rows).length) [] = rows := by
  induction rows using List.reverseRecOn with
  | nil => rfl
  | append_singleton rows r ih =>
    by_cases hr : r.isEmpty = true
    · have ht : trim (rows ++ [r]) = trim rows := List.rdropWhile_concat_pos _ _ _ hr
      have hle : (trim rows).length ≤ rows.length := by
        have := congrArg List.length ih
        simp only [List.length_append, List.length_replicate] at this
        omega
      obtain rfl : r = [] := by simpa using hr
      rw [ht, List.length_append, List.length_singleton, Nat.sub_add_comm hle,
        List.replicate_succ', ← List.append_assoc, ih]
    · have ht : trim (rows ++ [r]) = rows ++ [r] := List.rdropWhile_concat_neg _ _ _ (by simpa using hr)
      simp [ht]

/-- The decoder's table while a row is being received: `cur` are the complete paths
of the row and `q` is the path in progress. -/
def table (done : List (List (List ℤ))) (cur : List (List ℤ)) (q : List ℤ) :
    List (List (List ℤ)) :=
  if cur = [] ∧ q = [] then trim done
  else done ++ [cur ++ if q = [] then [] else [q]]

theorem table_close (done : List (List (List ℤ))) (cur : List (List ℤ)) {q : List ℤ}
    (hq : q ≠ []) : table done cur q = table done (cur ++ [q]) [] := by
  simp [table, hq]

theorem table_next (done : List (List (List ℤ))) (cur : List (List ℤ)) :
    table done cur [] = trim (done ++ [cur]) := by
  by_cases hc : cur = []
  · subst hc
    simp only [table, and_self, if_true]
    exact (List.rdropWhile_concat_pos List.isEmpty done [] rfl).symm
  · simp only [table, hc, false_and, if_false, if_true, List.append_nil]
    exact (List.rdropWhile_concat_neg List.isEmpty done cur (by simpa using hc)).symm

theorem modify_concat {α : Type*} (l : List α) (a : α) (f : α → α) :
    (l ++ [a]).modify l.length f = l ++ [f a] := by
  induction l with
  | nil => rfl
  | cons b l ih => simpa using ih

/-- A node extends the path in progress, whether row and path exist already or not. -/
theorem decodeStep_node (done : List (List (List ℤ))) (cur : List (List ℤ)) (q : List ℤ)
    (v : ℕ) :
    decodeStep ⟨done.length + 1, cur.length + 1, table done cur q⟩ v =
      some ⟨done.length + 1, cur.length + 1, table done cur (q ++ [serverRankToID v])⟩ := by
  have hv : (0 : ℚ) ≤ v := Nat.cast_nonneg v
  have h2 : (v : ℚ) ≠ -2 := by linarith
  have h1 : (v : ℚ) ≠ -1 := by linarith
  have htrunc : truncInt ((v : ℚ) * 2 + 8) = serverRankToID v := by
    have := truncInt_intCast ((v : ℤ) * 2 + 8)
    push_cast at this
    rw [this, serverRankToID]
  simp only [decodeStep, h2, h1, if_false, Nat.add_one_ne_zero, htrunc, Nat.add_sub_cancel]
  congr 2
  by_cases hempty : cur = [] ∧ q = []
  · obtain ⟨rfl, rfl⟩ := hempty
    have hpad := trim_append_replicate done
    have hle : (trim done).length ≤ done.length := by
      have := congrArg List.length hpad
      simp only [List.length_append, List.length_replicate] at this
      omega
    have hgrow : trim done ++ List.replicate (done.length + 1 - (trim done).length) [] =
        done ++ [[]] := by
      rw [Nat.sub_add_comm hle, List.replicate_succ', ← List.append_assoc, hpad]
    simp [table, hgrow]
  · have ht : table done cur q = done ++ [cur ++ if q = [] then [] else [q]] := by
      simp [table, hempty]
    have hlen : done.length + 1 - (table done cur q).length = 0 := by simp [ht]
    rw [hlen, List.replicate_zero, List.append_nil, ht]
    by_cases hq : q = []
    · subst hq
      simp [table, modify_concat]
    · simp [table, hq, modify_concat]

theorem decode_path (done : List (List (List ℤ))) (cur : List (List ℤ)) (q : List ℤ)
    (path : List ℕ) (hne : q ++ path.map serverRankToID ≠ []) :
    (path.map (Nat.cast : ℕ → ℚ) ++ [-1]).foldlM decodeStep
        ⟨done.length + 1, cur.length + 1, table done cur q⟩ =
      some ⟨done.length + 1, cur.length + 1 + 1,
        table done (cur ++ [q ++ path.map serverRankToID]) []⟩ := by
  induction path generalizing q with
  | nil =>
    have hq : q ≠ [] := by simpa using hne
    simp [decodeStep, ← table_close done cur hq, show (-1 : ℚ) ≠ -2 by norm_num]
  | cons v path ih =>
    simp only [List.map_cons, List.cons_append, List.foldlM_cons, decodeStep_node,
      Option.bind_eq_bind, Option.bind_some]
    rw [ih _ (by simp)]
    simp

theorem decode_paths (done : List (List (List ℤ))) (cur : List (List ℤ))
    (paths : List (List ℕ)) :
    (paths.flatMap fun path => if path = [] then [] else path.map (Nat.cast : ℕ → ℚ) ++ [-1]).foldlM
        decodeStep ⟨done.length + 1, cur.length + 1, table done cur []⟩ =
      some ⟨done.length + 1, cur.length + 1 + (received paths).length,
        table done (cur ++ received paths) []⟩ := by
  induction paths generalizing cur with
  | nil => simp [received]
  | cons path paths ih =>
    by_cases hp : path = []
    · have hr : received (path :: paths) = received paths := by simp [received, hp]
      rw [hr, List.flatMap_cons, if_pos hp, List.nil_append]
      exact ih cur
    · have hr : received (path :: paths) = path.map serverRankToID :: received paths := by
        simp [received, hp]
      have hnext := ih (cur ++ [path.map serverRankToID])
      rw [List.length_append, List.length_singleton] at hnext
      rw [List.flatMap_cons, if_neg hp, List.foldlM_append, Option.bind_eq_bind]
      rw [decode_path done cur [] path (by simpa using hp), Option.bind_some, List.nil_append,
        hnext, hr]
      congr 2
      · simp only [List.length_cons]
        omega
      · simp

/-- Rows arrive in order, and the table is always the rows so far without the empty
ones at the end. -/
theorem decode_rows (done : List (List (List ℤ))) (row : List (List (List ℕ))) (col : ℕ) :
    ∃ d, (row.flatMap destination).foldlM decodeStep ⟨done.length, col, trim done⟩ = some d ∧
      d.temp = trim (done ++ row.map received) := by
  induction row generalizing done col with
  | nil => exact ⟨_, rfl, by simp⟩
  | cons paths row ih =>
    obtain ⟨d, hd, htemp⟩ := ih (done ++ [received paths]) (1 + (received paths).length)
    refine ⟨d, ?_, by simpa using htemp⟩
    have hopen : decodeStep ⟨done.length, col, trim done⟩ (-2) =
        some ⟨done.length + 1, ([] : List (List ℤ)).length + 1, table done [] []⟩ := by
      simp [decodeStep, table]
    simp only [List.flatMap_cons, destination, List.cons_append, List.foldlM_cons, hopen,
      List.foldlM_append, Option.bind_eq_bind, Option.bind_some]
    rw [decode_paths, Option.bind_some, List.nil_append, table_next]
    simpa [Nat.add_comm] using hd

theorem getElem?_trim {rows : List (List (List ℤ))} {j : ℕ} (hj : j < (trim rows).length) :
    (trim rows)[j]? = rows[j]? := by
  conv_rhs => rw [← trim_append_replicate rows]
  rw [List.getElem?_append_left hj]

theorem lt_length_trim {rows : List (List (List ℤ))} {j : ℕ} :
    j < (trim rows).length ↔ ∃ k r, j ≤ k ∧ rows[k]? = some r ∧ r ≠ [] := by
  have hpad := trim_append_replicate rows
  constructor
  · intro hj
    have hne : trim rows ≠ [] := by
      intro h
      simp [h] at hj
    have hlast : (trim rows).getLast hne ≠ [] := by
      have h : ¬ ((trim rows).getLast hne).isEmpty = true :=
        List.rdropWhile_last_not List.isEmpty rows hne
      simpa only [List.isEmpty_iff] using h
    refine ⟨(trim rows).length - 1, (trim rows).getLast hne, by omega, ?_, hlast⟩
    rw [← getElem?_trim (by omega), List.getLast_eq_getElem, List.getElem?_eq_getElem (by omega)]
  · rintro ⟨k, r, hjk, hk, hr⟩
    by_contra hlt
    rw [← hpad, List.getElem?_append_right (by omega)] at hk
    exact hr (List.eq_of_mem_replicate (List.mem_of_getElem? hk))

theorem received_ne_nil {paths : List (List ℕ)} : received paths ≠ [] ↔ ∃ p ∈ paths, p ≠ [] := by
  simp [received, List.filter_eq_nil_iff]

/-- **Route table release round trip.** The decoder never fails; a destination with a
non-empty path gets exactly its non-empty paths in order, as ids; one without has an
empty row if a later destination has a path and no row otherwise. -/
theorem route_release_round_trip (midTp : ℚ) (row : List (List (List ℕ))) :
    ∃ table, parseRoutes (routeVector midTp row) = some (midTp, table) ∧
      ∀ (j : ℕ) (paths : List (List ℕ)), row[j]? = some paths →
        ((∃ p ∈ paths, p ≠ []) →
          table[j]? = some ((paths.filter (· ≠ [])).map (List.map fun v : ℕ => 2 * (v : ℤ) + 8))) ∧
        ((∀ p ∈ paths, p = []) →
          ((∃ k paths', j < k ∧ row[k]? = some paths' ∧ ∃ p ∈ paths', p ≠ []) →
            table[j]? = some []) ∧
          ((∀ k paths', j < k → row[k]? = some paths' → ∀ p ∈ paths', p = []) →
            table[j]? = none)) := by
  obtain ⟨d, hd, htemp⟩ := decode_rows [] row 1
  refine ⟨trim (row.map received), ?_, fun j paths hj => ⟨?_, ?_⟩⟩
  · have hd' : (row.flatMap destination).foldlM decodeStep ⟨0, 1, []⟩ = some d := hd
    simp [parseRoutes, routeVector, hd', htemp]
  · intro hex
    have hlt : j < (trim (row.map received)).length :=
      lt_length_trim.mpr ⟨j, received paths, le_rfl, by simp [hj], received_ne_nil.mpr hex⟩
    rw [getElem?_trim hlt, List.getElem?_map, hj, Option.map_some, received]
    have hid : serverRankToID = fun v : ℕ => 2 * (v : ℤ) + 8 := by
      funext v
      simp only [serverRankToID]
      omega
    rw [hid]
  · intro hall
    have hempty : received paths = [] := by
      by_contra hne
      obtain ⟨p, hp, hp'⟩ := received_ne_nil.mp hne
      exact hp' (hall p hp)
    constructor
    · rintro ⟨k, paths', hjk, hk, hex⟩
      have hlt : j < (trim (row.map received)).length :=
        lt_length_trim.mpr ⟨k, received paths', hjk.le, by simp [hk], received_ne_nil.mpr hex⟩
      rw [getElem?_trim hlt, List.getElem?_map, hj, Option.map_some, hempty]
    · intro hlater
      rw [List.getElem?_eq_none]
      by_contra hlt
      obtain ⟨k, r, hjk, hk, hr⟩ := lt_length_trim.mp (not_le.mp hlt)
      obtain ⟨paths', hk', rfl⟩ : ∃ a, row[k]? = some a ∧ received a = r := by simpa using hk
      obtain ⟨p, hp, hp'⟩ := received_ne_nil.mp hr
      rcases Nat.eq_or_lt_of_le hjk with rfl | hlt'
      · rw [hj] at hk'
        exact hp' (hall p (Option.some.inj hk' ▸ hp))
      · exact hp' (hlater k paths' hlt' hk' p hp)

end NetStorm.RouteRelease
