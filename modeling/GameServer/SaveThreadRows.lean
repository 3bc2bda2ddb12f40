import Mathlib.Tactic
import GameServer.SaveQueueOrder
import GameServer.SaveThread

/-!
# No lost update

A record that was written has its row current, or an `addevent` still to come, or a pending event,
or an event in the hands of the saver that will bring its present value. Reads that fail in
`formatsql` end the saver and are the one way to lose an update.
-/

namespace GameServer.SaveThread

open SaveQueue FormatSql Transition

variable {load : Evaluate} {redis : Record → Option Fields} {row : Record → Option String}
variable {s t : State} {refs : List ℕ} {pending : List Event}

theorem mem_addPending_records (pending : List Event) (e : Event) (r : Record) :
    r ∈ (addPending pending e).map Event.record ↔
      r = e.record ∨ r ∈ pending.map Event.record := by
  rw [addPending_records]
  split_ifs with hmem
  · refine ⟨Or.inr, ?_⟩
    rintro (rfl | h)
    · exact hmem
    · exact h
  · rw [List.mem_append, List.mem_singleton, or_comm]

/-- A round sleeps when its count is used up or nothing waits, and otherwise takes the first
pending event. -/
theorem round_cases (h : Refines s.dbcmd refs pending) (left : ℕ) :
    s.round left = { s with saver := .sleeping } ∨
      ∃ cmd rest left' dbcmd refs', pending = cmd :: rest ∧ Refines dbcmd refs' rest ∧
        s.round left = s.take dbcmd cmd left' := by
  cases left with
  | zero => exact Or.inl rfl
  | succ left =>
      cases pending with
      | nil => exact Or.inl (by simp only [State.round, h.pop_nil])
      | cons cmd rest =>
          obtain ⟨dbcmd, refs', hpop, href⟩ := h.pop_cons
          exact Or.inr ⟨cmd, rest, left, dbcmd, refs', rfl, href, by simp only [State.round, hpop]⟩

@[simp] theorem written_cmd? (r : Record) (saver : Saver) :
    (saver.written r).cmd? = saver.cmd? := by
  cases saver <;> rfl

@[simp] theorem take_cmd? (s : State) (dbcmd : Dbcmd) (cmd : Event) (left : ℕ) :
    (s.take dbcmd cmd left).saver.cmd? = some cmd := by
  simp only [State.take]
  cases cmd.type <;> rfl

theorem written_ne_dead {saver : Saver} (r : Record) (h : saver ≠ .dead) :
    saver.written r ≠ .dead := by
  cases saver with
  | dead => exact absurd rfl h
  | _ => simp [Saver.written]

theorem take_ne_dead (s : State) (dbcmd : Dbcmd) (cmd : Event) (left : ℕ) :
    (s.take dbcmd cmd left).saver ≠ .dead := by
  simp only [State.take]
  cases cmd.type <;> simp

/-! ## No lost update -/

/-- The saver's progress leaves the row of `r` current, if nothing else happens to `r`. -/
def SaverCovers (load : Evaluate) (s : State) (r : Record) : Prop :=
  match s.saver with
  | .loading cmd _ clean => if cmd.record = r then clean = true else Current load s r
  | .querying cmd stmt _ =>
      if cmd.record = r then
        ∃ sql, stmt = .replace sql ∧ formatsql load r.2 r.1 (s.redis r) = some sql
      else Current load s r
  | _ => Current load s r

def Covered (load : Evaluate) (s : State) (pending : List Event) (r : Record) : Prop :=
  r ∈ s.updates.map Prod.fst ∨ r ∈ pending.map Event.record ∨ SaverCovers load s r

structure NoLoss (load : Evaluate) (s : State) (pending : List Event) : Prop where
  alive : s.saver ≠ .dead
  replaces : ∀ e ∈ pending, e.type = .R
  announced : ∀ u ∈ s.updates, u.2 = .R
  covered : ∀ r ∈ s.written, Covered load s pending r

namespace NoLoss

theorem update (h : NoLoss load s pending) (r : Record) :
    NoLoss load { s with updates := (r, .R) :: s.updates } pending where
  alive := h.alive
  replaces := h.replaces
  announced u hu := by
    rcases List.mem_cons.mp hu with rfl | hu
    · rfl
    · exact h.announced u hu
  covered r' hr' := by
    rcases h.covered r' hr' with hc | hc | hc
    · exact Or.inl (List.mem_cons_of_mem _ hc)
    · exact Or.inr (Or.inl hc)
    · exact Or.inr (Or.inr hc)

theorem write (h : NoLoss load s pending) {r : Record} (hr : r ∈ s.updates.map Prod.fst)
    (unit : Option Fields) :
    NoLoss load { s with
      redis := Function.update s.redis r unit
      written := r :: s.written
      saver := s.saver.written r } pending where
  alive := written_ne_dead r h.alive
  replaces := h.replaces
  announced := h.announced
  covered r' hr' := by
    by_cases heq : r' = r
    · exact Or.inl (heq ▸ hr)
    · have hw : r' ∈ s.written := (List.mem_cons.mp hr').resolve_left heq
      rcases h.covered r' hw with hc | hc | hc
      · exact Or.inl hc
      · exact Or.inr (Or.inl hc)
      · -- another record was written, so neither its load nor its row is affected
        refine Or.inr (Or.inr ?_)
        have hredis : Function.update s.redis r unit r' = s.redis r' :=
          Function.update_of_ne heq _ _
        cases hs : s.saver with
        | loading cmd left clean =>
            by_cases hcmd : cmd.record = r'
            · have hne : cmd.record ≠ r := hcmd ▸ heq
              simpa [SaverCovers, Saver.written, hs, hcmd, heq] using hc
            · simpa [SaverCovers, Saver.written, hs, hcmd, Current, hredis] using hc
        | querying cmd stmt left =>
            by_cases hcmd : cmd.record = r' <;>
              simpa [SaverCovers, Saver.written, hs, hcmd, Current, hredis] using hc
        | sleeping => simpa [SaverCovers, Saver.written, hs, Current, hredis] using hc
        | dead => exact absurd hs h.alive

theorem addevent (h : NoLoss load s pending) (r : Record) (dbcmd : Dbcmd)
    (since : Record → ℕ) (added : List Record) :
    NoLoss load { s with dbcmd, since, added, updates := s.updates.erase (r, .R) }
      (addPending pending ⟨r.1, r.2, .R⟩) where
  alive := h.alive
  replaces e he := by
    rcases addPending_mem he with ⟨-, ht⟩ | ⟨-, he⟩
    · exact ht
    · exact h.replaces e he
  announced u hu := h.announced u (List.mem_of_mem_erase hu)
  covered r' hr' := by
    by_cases heq : r' = r
    · exact Or.inr (Or.inl ((mem_addPending_records _ _ _).mpr (Or.inl heq)))
    · rcases h.covered r' hr' with hc | hc | hc
      · obtain ⟨u, hu, rfl⟩ := List.mem_map.mp hc
        have hne : u ≠ (r, .R) := fun hu => heq (by rw [hu])
        exact Or.inl (List.mem_map_of_mem ((List.mem_erase_of_ne hne).mpr hu))
      · exact Or.inr (Or.inl ((mem_addPending_records _ _ _).mpr (Or.inr hc)))
      · exact Or.inr (Or.inr hc)

theorem take {cmd : Event} {rest : List Event} (h : NoLoss load s (cmd :: rest))
    (hs : s.saver = .sleeping) (dbcmd : Dbcmd) (left : ℕ) :
    NoLoss load (s.take dbcmd cmd left) rest where
  alive := take_ne_dead s dbcmd cmd left
  replaces e he := h.replaces e (List.mem_cons_of_mem _ he)
  announced := h.announced
  covered r hr := by
    have hR : cmd.type = .R := h.replaces cmd List.mem_cons_self
    have hcov : SaverCovers load (s.take dbcmd cmd left) r ↔
        if cmd.record = r then True else Current load s r := by
      simp [SaverCovers, State.take, hR, Current]
    rcases h.covered r hr with hc | hc | hc
    · exact Or.inl hc
    · rw [List.map_cons, List.mem_cons] at hc
      rcases hc with rfl | hc
      · exact Or.inr (Or.inr (hcov.mpr (by rw [if_pos rfl]; trivial)))
      · exact Or.inr (Or.inl hc)
    · have hcur : Current load s r := by simpa [SaverCovers, hs] using hc
      refine Or.inr (Or.inr (hcov.mpr ?_))
      split_ifs
      exact hcur

theorem round (h : NoLoss load s pending) (hs : s.saver = .sleeping)
    (href : Refines s.dbcmd refs pending) (left : ℕ) :
    ∃ refs' pending', Refines (s.round left).dbcmd refs' pending' ∧
      NoLoss load (s.round left) pending' := by
  rcases round_cases href left with hr | ⟨cmd, rest, left', dbcmd, refs', rfl, href', hr⟩
  · rw [hr]
    exact ⟨refs, pending, href, ⟨by simp, h.replaces, h.announced, fun r hr => by
      simpa [Covered, SaverCovers, hs, Current] using h.covered r hr⟩⟩
  · rw [hr]
    exact ⟨refs', rest, href', h.take hs dbcmd left'⟩

theorem loaded (h : NoLoss load s pending) {cmd : Event} {left : ℕ} {clean : Bool}
    (hs : s.saver = .loading cmd left clean) {unit : Option Fields} {sql : String}
    (hsql : formatsql load cmd.key cmd.table (s.unit cmd.record clean unit) = some sql) :
    NoLoss load { s with saver := .querying cmd (.replace sql) left } pending where
  alive := by simp
  replaces := h.replaces
  announced := h.announced
  covered r hr := by
    rcases h.covered r hr with hc | hc | hc
    · exact Or.inl hc
    · exact Or.inr (Or.inl hc)
    · refine Or.inr (Or.inr ?_)
      by_cases hcmd : cmd.record = r
      · -- the load was clean, so it returned the record as it is
        have hclean : clean = true := by simpa [SaverCovers, hs, hcmd] using hc
        subst hcmd hclean
        simp only [SaverCovers, if_pos]
        exact ⟨sql, rfl, hsql⟩
      · simpa [SaverCovers, hs, hcmd, Current] using hc

theorem save (h : NoLoss load s pending) {cmd : Event} {left : ℕ} {stmt : Statement}
    (hs : s.saver = .querying cmd stmt left) :
    NoLoss load (s.save cmd.record stmt) pending where
  alive := by simp [State.save]
  replaces := h.replaces
  announced := h.announced
  covered r hr := by
    rcases h.covered r hr with hc | hc | hc
    · exact Or.inl hc
    · exact Or.inr (Or.inl hc)
    · refine Or.inr (Or.inr ?_)
      by_cases hcmd : cmd.record = r
      · subst hcmd
        obtain ⟨sql, hstmt, hsql⟩ : ∃ sql, stmt = .replace sql ∧
            formatsql load cmd.record.2 cmd.record.1 (s.redis cmd.record) = some sql := by
          simpa [SaverCovers, hs] using hc
        exact ⟨sql, hsql, by simp [State.save, hstmt, Statement.row]⟩
      · have hcur : Current load s r := by simpa [SaverCovers, hs, hcmd] using hc
        obtain ⟨sql, hsql, hrow⟩ := hcur
        refine ⟨sql, hsql, ?_⟩
        rw [← hrow]
        exact Function.update_of_ne (Ne.symm hcmd) _ _

end NoLoss

theorem noLoss_step {l : Label} (href : Refines s.dbcmd refs pending) (h : NoLoss load s pending)
    (hok : ReplaceOk load s l) (hst : step load s l = some t) :
    ∃ refs' pending', Refines t.dbcmd refs' pending' ∧ NoLoss load t pending' := by
  obtain ⟨hrep, hsucc, hwrit⟩ := hok
  cases l with
  | update r type =>
      cases hst
      have htype : type = .R := hrep
      subst htype
      exact ⟨refs, pending, href, h.update r⟩
  | write r unit =>
      simp only [step] at hst
      split_ifs at hst with hr
      cases hst
      exact ⟨refs, pending, href, h.write hr unit⟩
  | addevent r type =>
      simp only [step] at hst
      split_ifs at hst with hr
      cases hst
      have htype : type = .R := h.announced _ hr
      subst htype
      obtain ⟨refs', href'⟩ := href.addevent ⟨r.1, r.2, .R⟩
      exact ⟨refs', _, href', h.addevent r _ _ _⟩
  | wake =>
      simp only [step] at hst
      split_ifs at hst with hs
      cases hst
      exact h.round hs href _
  | loaded reply =>
      simp only [step] at hst
      cases hs : s.saver with
      | loading cmd left clean =>
          rw [hs] at hst
          cases reply with
          | none => exact absurd rfl hsucc
          | some unit =>
              cases hsql : formatsql load cmd.key cmd.table (s.unit cmd.record clean unit) with
              | none =>
                  have := (formatsql_isSome load cmd.key _ _).mpr (hwrit cmd left clean hs)
                  rw [hsql] at this
                  cases this
              | some sql =>
                  simp only [hsql, Option.some.injEq] at hst
                  subst hst
                  exact ⟨refs, pending, href, h.loaded hs hsql⟩
      | _ => rw [hs] at hst; cases hst
  | queried reply =>
      simp only [step] at hst
      cases hs : s.saver with
      | querying cmd stmt left =>
          have hreply : reply = .ok := hsucc
          rw [hs, hreply] at hst
          cases hst
          exact (h.save hs).round rfl href left
      | _ => rw [hs] at hst; cases hst
  | saveall =>
      cases hst
      exact ⟨refs, pending, href, h.alive, h.replaces, h.announced, h.covered⟩
  | poll i =>
      simp only [step] at hst
      cases hp : s.polls[i]? with
      | none => rw [hp] at hst; cases hst
      | some mark =>
          rw [hp] at hst
          dsimp only at hst
          split_ifs at hst <;> cases hst
          · exact ⟨refs, pending, href, h.alive, h.replaces, h.announced, h.covered⟩
          · exact ⟨refs, pending, href, h⟩

theorem noLoss_runs (hs : (saveThread load redis row).Runs (ReplaceOk load) s) :
    ∃ refs pending, Refines s.dbcmd refs pending ∧ NoLoss load s pending := by
  refine System.Runs.invariant (P := fun s => ∃ refs pending, Refines s.dbcmd refs pending ∧
    NoLoss load s pending) ?_ (fun s l t hP hok hst => ?_) hs
  · refine ⟨[], [], .empty, ?_, ?_, ?_, ?_⟩
    · simp [saveThread]
    all_goals intro _ h; cases h
  · obtain ⟨refs, pending, href, h⟩ := hP
    exact noLoss_step href h hok hst

/-- In every run whose loads and queries succeed on units that can be written, once the queue is
empty and nothing is under way the row of every record written is current. -/
theorem quiescent_rows_current (hs : (saveThread load redis row).Runs (ReplaceOk load) s)
    (hq : Quiescent s) : ∀ r ∈ s.written, Current load s r := by
  intro r hr
  obtain ⟨refs, pending, href, h⟩ := noLoss_runs hs
  obtain ⟨hempty, hupd, hcmd⟩ := hq
  have hnil : pending = [] := href.head_eq_tail.mp hempty
  rcases h.covered r hr with hc | hc | hc
  · rw [hupd] at hc
    cases hc
  · rw [hnil] at hc
    cases hc
  · cases hsv : s.saver with
    | sleeping => simpa [SaverCovers, hsv] using hc
    | dead => exact absurd hsv h.alive
    | loading cmd left clean => rw [hsv] at hcmd; cases hcmd
    | querying cmd stmt left => rw [hsv] at hcmd; cases hcmd

/-- One record written and announced, up to the load by the saver. -/
def upToLoad (r : Record) (unit : Option Fields) : List Label :=
  [.update r .R, .write r unit, .addevent r .R, .wake]

theorem replaceOk_upToLoad (load : Evaluate) (r : Record) (unit : Option Fields) :
    ∀ l ∈ upToLoad r unit, ∀ s, ReplaceOk load s l := by
  simp [upToLoad, ReplaceOk, Replaces, Succeeds, LoadsWritable]

theorem quiescent_rows_current_account :
    ∃ s, (saveThread (fun _ => none) (fun _ => some .nil) (fun _ => none)).Runs
        (ReplaceOk fun _ => none) s ∧
      (.account, "a") ∈ s.written ∧ Current (fun _ => none) s (.account, "a") := by
  let unit := some (Fields.cons (.name "gold") (.number "5") .nil)
  have hload : (saveThread (fun _ => none) (fun _ => some .nil) (fun _ => none)).Runs
      (ReplaceOk fun _ => none) _ :=
    .of_run .init (replaceOk_upToLoad _ (.account, "a") unit) rfl
  have hquery := hload.step (i := Label.loaded (some unit))
    ⟨trivial, by simp [Succeeds], by intro _ _ _ h; cases h; rfl⟩ rfl
  have hrun := hquery.step (i := Label.queried .ok) ⟨trivial, rfl, trivial⟩ rfl
  exact ⟨_, hrun, by decide, quiescent_rows_current hrun ⟨rfl, rfl, rfl⟩ _ (by decide)⟩

/-- The unit loaded for a player with one explore is a table of tables. Nothing fails but the
concatenation in `packsql`, which ends the saver; the row is never written. -/
theorem explores_row_lost :
    ¬ ∀ (load : Evaluate) (redis : Record → Option Fields) (row : Record → Option String)
      (s : State), (saveThread load redis row).Runs (fun _ l => Replaces l ∧ Succeeds l) s →
        Quiescent s → ∀ r ∈ s.written, Current load s r := by
  intro hclaim
  let unit := some (Fields.cons (.name "e1")
    (.table (.cons (.name "uuid") (.string "e1") (.cons (.name "dataId") (.number "7") .nil))) .nil)
  have hload : (saveThread (fun _ => none) (fun _ => some .nil) (fun _ => none)).Runs
      (fun _ l => Replaces l ∧ Succeeds l) _ :=
    .of_run .init (fun l hl s => (replaceOk_upToLoad (fun _ => none)
      (.explores, "a") unit l hl s).imp_right And.left) rfl
  have hrun := hload.step (i := Label.loaded (some unit)) ⟨trivial, by simp [Succeeds]⟩ rfl
  obtain ⟨sql, hsql, -⟩ := hclaim _ _ _ _ hrun ⟨rfl, rfl, rfl⟩ (.explores, "a") (by decide)
  have hw := (formatsql_isSome (fun _ => none) "a" .explores unit).mp (by
    exact Option.isSome_iff_exists.mpr ⟨sql, hsql⟩)
  exact not_writable_explores _ _ _ _ hw

end GameServer.SaveThread
