import LinkClosure.Proofs.Engine.Transparency

/-!
# The accounts of an engine

The cache counts one look-up for each closure that is made, as a hit or as a miss,
whatever becomes of its slots. A table counts each row that is asked of it: the
row is stored if it was not there, and counts as saved if it was. So both can be
checked against the requests of a session, also where closures share a table that
the cache has given up long ago, or that it never knew.
-/

set_option autoImplicit false

namespace LinkClosure

namespace ShapeCache

variable {c : ShapeCache} {savingsOf : Nat → Nat}

/-- The look-ups so far, found or not. -/
def answered (c : ShapeCache) : Nat := c.counters.hits + c.counters.misses

@[simp] theorem answered_countHit : c.countHit.answered = c.answered + 1 := by
  simp only [answered, countHit]
  omega

@[simp] theorem answered_countMiss : c.countMiss.answered = c.answered + 1 := by
  simp only [answered, countMiss]
  omega

@[simp] theorem answered_settleLookup (l : Lookup) : (c.settleLookup l).answered = c.answered := by
  unfold settleLookup
  split <;> rfl

@[simp] theorem answered_settleStore (waiting : List UInt64) (d : UInt64) :
    (c.settleStore savingsOf waiting d).answered = c.answered := by
  cases hs : c.slot? d with
  | none => simp only [settleStore, hs]
  | some s =>
    simp only [settleStore, hs]
    split_ifs
    · rfl
    · split <;> rfl
    · split <;> rfl

@[simp] theorem answered_settleLookups (ls : List Lookup) (c : ShapeCache) :
    (ls.foldl settleLookup c).answered = c.answered := by
  induction ls generalizing c with
  | nil => rfl
  | cons l ls ih => rw [List.foldl_cons, ih, answered_settleLookup]

@[simp] theorem answered_settleStores (ds : List UInt64) (c : ShapeCache) :
    (settleStores savingsOf ds c).answered = c.answered := by
  induction ds generalizing c with
  | nil => rfl
  | cons d ds ih => rw [settleStores, ih, answered_settleStore]

@[simp] theorem answered_startCounting : c.startCounting.answered = c.answered := by
  unfold startCounting
  split_ifs <;> rfl

@[simp] theorem answered_maintain : (c.maintain savingsOf).answered = c.answered := by
  change (settleStores savingsOf _ _).startCounting.answered = _
  rw [answered_startCounting, answered_settleStores, answered_settleLookups]
  rfl

@[simp] theorem answered_logLookup (l : Lookup) :
    (c.logLookup savingsOf l).answered = c.answered := by
  unfold logLookup
  split_ifs
  · exact answered_maintain
  · rfl

@[simp] theorem answered_store (d : UInt64) (table : Nat) :
    (c.store d table).answered = c.answered := by
  unfold store
  split_ifs <;> rfl

end ShapeCache

namespace RowTable

/-- So many rows were asked of the table, each stored once. -/
structure Accounts (t : RowTable) (asked : Nat) : Prop where
  total : t.savings + t.rows.length = asked
  nodup : (t.rows.map Prod.fst).Nodup

variable {t : RowTable} {n : Nat}

theorem accounts_ofShape (shape : String) : (ofShape shape).Accounts 0 := ⟨rfl, List.nodup_nil⟩

theorem Accounts.countSaving (h : t.Accounts n) : t.countSaving.Accounts (n + 1) where
  total := by
    have htotal := h.total
    simp only [RowTable.countSaving]
    omega
  nodup := h.nodup

theorem not_mem_keys_of_find?_eq_none {k : RowKey} (hk : t.find? k = none) :
    k ∉ t.rows.map Prod.fst := by
  intro hmem
  obtain ⟨e, he, rfl⟩ := List.mem_map.1 hmem
  have hne := List.lookup_eq_none_iff.1 hk e he
  simp at hne

theorem Accounts.store (h : t.Accounts n) {k : RowKey} (hk : t.find? k = none) (row : Row) :
    (t.store k row).Accounts (n + 1) where
  total := by
    have htotal := h.total
    simp only [RowTable.store, List.length_cons]
    omega
  nodup := List.nodup_cons.2 ⟨not_mem_keys_of_find?_eq_none hk, h.nodup⟩

end RowTable

namespace Closure

variable {c : Closure} {start : Variable}

def allAsked (c : Closure) : List Nat := List.replicate c.frame.size c.table

/-- The request to the table for a row, unless the start is unknown. -/
def asked (c : Closure) (start : Variable) : List Nat :=
  if start ∈ c.frame.nodes then [c.table] else []

theorem asked_of_unknown (h : c.frame.position? start = none) : c.asked start = [] :=
  if_neg (Array.finIdxOf?_eq_none_iff.1 h)

theorem asked_of_known {i : Fin c.frame.nodes.size} (h : c.frame.position? start = some i) :
    c.asked start = [c.table] := by
  refine if_pos ?_
  rw [← (Array.finIdxOf?_eq_some_iff.1 h).1]
  exact Array.getElem_mem i.isLt

end Closure

namespace Engine

def answered (e : Engine) : Option Nat := e.cache.map ShapeCache.answered

/-- So many look-ups were made, if there is a cache, and a row was asked of each of
these tables. -/
structure Accounts (e : Engine) (lookups : Option Nat) (asked : List Nat) : Prop where
  answered : e.answered = lookups
  table : ∀ (k : Nat) (t : RowTable), e.tables[k]? = some t → t.Accounts (asked.count k)
  known : ∀ k ∈ asked, k < e.tables.size

variable {e e' : Engine} {lookups lookups' : Option Nat} {asked : List Nat} {c : Closure}

theorem answered_mapCache {change : ShapeCache → ShapeCache} {k : Nat}
    (h : ∀ c, (change c).answered = c.answered + k) :
    (e.mapCache change).answered = e.answered.map (· + k) := by
  simp only [answered, mapCache, Option.map_map]
  congr 1
  funext c
  exact h c

theorem Accounts.consult (h : e.Accounts lookups asked) (htables : e'.tables = e.tables)
    (hanswered : e'.answered = lookups') : e'.Accounts lookups' asked where
  answered := hanswered
  table := by
    rw [htables]
    exact h.table
  known := by
    rw [htables]
    exact h.known

theorem Accounts.mapCache (h : e.Accounts lookups asked) {change : ShapeCache → ShapeCache}
    (hchange : ∀ c, (change c).answered = c.answered) :
    (e.mapCache change).Accounts lookups asked := by
  refine h.consult rfl ?_
  rw [answered_mapCache (k := 0) hchange, h.answered]
  exact Option.map_id'

theorem Accounts.countLookup (h : e.Accounts lookups asked) {count : ShapeCache → ShapeCache}
    (hcount : ∀ c, (count c).answered = c.answered + 1) :
    (e.mapCache count).Accounts (lookups.map (· + 1)) asked := by
  refine h.consult rfl ?_
  rw [answered_mapCache hcount, h.answered]

theorem Accounts.logLookup (h : e.Accounts lookups asked) (l : Lookup) :
    (e.logLookup l).Accounts lookups asked :=
  h.mapCache fun _ => ShapeCache.answered_logLookup l

theorem Accounts.log (h : e.Accounts lookups asked) (r : TraceRecord) :
    (e.log r).Accounts lookups asked :=
  h.consult rfl h.answered

theorem Accounts.openTable (h : e.Accounts lookups asked) (shape : String) :
    (e.openTable shape).1.Accounts lookups asked where
  answered := h.answered
  table k t hk := by
    simp only [Engine.openTable, Array.getElem?_push] at hk
    split_ifs at hk with hnew
    · have hcount : asked.count k = 0 :=
        List.count_eq_zero.2 fun hmem => (h.known k hmem).ne hnew
      rw [hcount, ← Option.some.inj hk]
      exact RowTable.accounts_ofShape shape
    · exact h.table k t hk
  known k hk := by
    have hlt := h.known k hk
    simp only [Engine.openTable, Array.size_push]
    omega

/-- One look-up is made for a shape, whatever the cache answers. -/
theorem Accounts.tableFor (h : e.Accounts lookups asked) (shape : String) :
    (e.tableFor shape).1.Accounts (lookups.map (· + 1)) asked := by
  cases hc : e.cache with
  | none =>
    have hnone : lookups.map (· + 1) = lookups := by
      rw [← h.answered, Engine.answered, hc]
      rfl
    simp only [Engine.tableFor, hc, hnone]
    exact h.openTable shape
  | some cache =>
    simp only [Engine.tableFor, hc]
    cases hfind : cache.find? (digest shape) with
    | none =>
      -- The second look-up of a shape that was missed is logged, but not counted.
      have hmiss := ((h.logLookup ⟨digest shape, false⟩).countLookup
        fun _ => ShapeCache.answered_countMiss).log .cacheMiss
      exact ((hmiss.logLookup ⟨digest shape, false⟩).openTable shape).mapCache
        fun _ => ShapeCache.answered_store _ _
    | some table =>
      have hhit := ((h.logLookup ⟨digest shape, true⟩).countLookup
        fun _ => ShapeCache.answered_countHit).log .cacheHit
      simp only []
      split_ifs
      · exact hhit
      · exact (hhit.log .cacheCollision).openTable shape

theorem Accounts.modify (h : e.Accounts lookups asked) {table : Nat} {change : RowTable → RowTable}
    (htable : table < e.tables.size) (htables : e'.tables = e.tables.modify table change)
    (hcache : e'.cache = e.cache)
    (hchange : ∀ t n, e.tables[table]? = some t → t.Accounts n → (change t).Accounts (n + 1)) :
    e'.Accounts lookups (asked ++ [table]) where
  answered := by
    rw [Engine.answered, hcache]
    exact h.answered
  table k t hk := by
    rw [htables, Array.getElem?_modify] at hk
    split_ifs at hk with heq
    · subst heq
      obtain ⟨t', ht', rfl⟩ := Option.map_eq_some_iff.1 hk
      rw [List.count_append, List.count_singleton_self]
      exact hchange t' _ ht' (h.table _ t' ht')
    · rw [List.count_append, List.count_singleton, if_neg (by simpa using heq)]
      exact h.table k t hk
  known k hk := by
    rw [htables, Array.size_modify]
    rcases List.mem_append.1 hk with hk | hk
    · exact h.known k hk
    · rwa [List.mem_singleton.1 hk]

theorem size_row (e : Engine) (c : Closure) (i : Fin c.frame.nodes.size) (floor : Option Level) :
    (e.row c i floor).1.tables.size = e.tables.size := by
  simp only [row]
  split <;> exact Array.size_modify

theorem Accounts.row (h : e.Accounts lookups asked) (hc : c.table < e.tables.size)
    (i : Fin c.frame.nodes.size) (floor : Option Level) :
    (e.row c i floor).1.Accounts lookups (asked ++ [c.table]) := by
  simp only [Engine.row]
  split
  · exact h.modify hc rfl rfl fun _ _ _ ht => ht.countSaving
  · next hfind =>
    refine h.modify hc rfl rfl fun t n ht hn => ?_
    rw [ht, Option.bind_some] at hfind
    exact hn.store hfind _

theorem Accounts.rows (h : e.Accounts lookups asked) (hc : c.table < e.tables.size)
    (is : List (Fin c.frame.nodes.size)) :
    (is.foldl (fun e i => (e.row c i none).1) e).Accounts lookups
      (asked ++ List.replicate is.length c.table) := by
  induction is generalizing e asked with
  | nil => simpa using h
  | cons i is ih =>
    have hrest := ih (h.row hc i none) (by rwa [size_row])
    rwa [List.append_assoc, List.singleton_append, ← List.replicate_succ] at hrest

theorem Accounts.allRows (h : e.Accounts lookups asked) (hc : c.table < e.tables.size) :
    (e.allRows c).Accounts lookups (asked ++ c.allAsked) := by
  have hrows := h.rows hc (List.finRange c.frame.nodes.size)
  rwa [List.length_finRange] at hrows

theorem linksOfAll_fst (c : Closure) (e : Engine) : (e.linksOfAll c).1 = e.allRows c :=
  (List.foldl_hom Prod.fst fun _ _ => rfl).symm

theorem Accounts.links (h : e.Accounts lookups asked) (hc : c.table < e.tables.size)
    (start : Variable) (floor : Option Level) :
    (e.links c start floor).1.Accounts lookups (asked ++ c.asked start) := by
  cases hi : c.frame.position? start with
  | none =>
    simp only [Engine.links, hi, Closure.asked_of_unknown hi, List.append_nil]
    exact h
  | some i =>
    simp only [Engine.links, hi, Closure.asked_of_known hi]
    exact h.row hc i floor

theorem isEager_tableFor (shape : String) (e : Engine) :
    (e.tableFor shape).1.isEager = e.isEager := by
  cases hc : e.cache with
  | none => simp only [Engine.tableFor, hc, openTable]
  | some cache =>
    simp only [Engine.tableFor, hc]
    split
    · split_ifs <;> rfl
    · rfl

/-- A closure is looked up once, and all its rows are asked for at once if the engine
is eager. -/
theorem Accounts.close (h : e.Accounts lookups asked) (g : Graph) :
    (e.close g).1.Accounts (lookups.map (· + 1))
      (asked ++ if e.isEager then (e.close g).2.allAsked else []) := by
  have hopened := (h.log (.graphFrozen (Frame.ofGraph g).size (Frame.ofGraph g).edgeCount)).tableFor
    (Frame.ofGraph g).shape
  have hserves := (tableFor_spec (Frame.ofGraph g).shape
    (e.log (.graphFrozen (Frame.ofGraph g).size (Frame.ofGraph g).edgeCount))).2
  simp only [Engine.close, isEager_tableFor]
  change (if e.isEager then _ else _ : Engine).Accounts _ _
  split_ifs
  · exact hopened.allRows hserves.lt
  · rwa [List.append_nil]

end Engine

def Request.makesClosure : Request → Bool
  | .close _ _ => true
  | _ => false

namespace Session

variable {s : Session} {l : Ledger} {lookups : Option Nat} {rows : List Nat}

/-- The table of each row that a request asks for. -/
def asked (s : Session) : Request → List Nat
  | .close name _ =>
    if s.engine.isEager then (s.engine.close (s.graph name).freeze).2.allAsked else []
  | .links closure start _ => (s.closures.get? closure).elim [] fun c => c.asked start
  | .linksOfAll closure => (s.closures.get? closure).elim [] Closure.allAsked
  | _ => []

theorem Mirrors.accounts_perform (hs : s.Mirrors l) (h : s.engine.Accounts lookups rows)
    (r : Request) :
    (s.perform r).1.engine.Accounts (lookups.map (· + r.makesClosure.toNat))
      (rows ++ s.asked r) := by
  have hsame : lookups.map (· + false.toNat) = lookups := Option.map_id'
  have hquiet : ∀ e : Engine, e.Accounts lookups rows →
      e.Accounts (lookups.map (· + false.toNat)) (rows ++ []) := by
    intro e he
    rwa [hsame, List.append_nil]
  have hlook : ∀ s' : Session, s' = s →
      s'.engine.Accounts (lookups.map (· + false.toNat)) (rows ++ []) := by
    rintro _ rfl
    exact hquiet _ h
  cases r with
  | close name closure => exact h.close _
  | links closure start floor =>
    simp only [Session.perform, Session.onClosure, Session.asked]
    cases hc : s.closures.get? closure with
    | none => exact hquiet _ h
    | some c =>
      have hrow := h.links (hs.serves closure c hc).lt start floor
      rwa [← hsame] at hrow
  | linksOfAll closure =>
    simp only [Session.perform, Session.onClosure, Session.asked]
    cases hc : s.closures.get? closure with
    | none => exact hquiet _ h
    | some c =>
      have hrows := h.allRows (hs.serves closure c hc).lt
      rwa [← hsame, ← Engine.linksOfAll_fst] at hrows
  | variableAt closure i => exact hlook _ (fst_onClosure fun _ => rfl)
  | savings closure => exact hlook _ (fst_onClosure fun _ => rfl)
  | shapeDigest closure => exact hlook _ (fst_onClosure fun _ => rfl)
  | sameDigest closure other =>
    exact hlook _ (fst_onClosure fun _ => fst_onClosure fun _ => rfl)
  | cacheCounters => exact hquiet _ (h.mapCache fun _ => ShapeCache.answered_maintain)
  | invalidate => exact hquiet _ (h.mapCache fun _ => rfl)
  | discard d => exact hquiet _ (h.mapCache fun _ => rfl)
  | report =>
    refine hquiet _ ?_
    change s.engine.report.Accounts lookups rows
    unfold Engine.report
    split
    · exact h.log _
    · exact h
  | trace => exact hquiet _ (h.consult rfl h.answered)
  | _ => exact hquiet _ h

/-- The session after a run in which anything may happen to the cache before each request. -/
def afterAmid (s : Session) : List ((ShapeCache → ShapeCache) × Request) → Session
  | [] => s
  | (change, r) :: rest => ((s.withEngine (s.engine.mapCache change)).perform r).1.afterAmid rest

def askedAmid (s : Session) : List ((ShapeCache → ShapeCache) × Request) → List Nat
  | [] => []
  | (change, r) :: rest =>
    let s := s.withEngine (s.engine.mapCache change)
    s.asked r ++ (s.perform r).1.askedAmid rest

theorem Mirrors.accounts_afterAmid (hs : s.Mirrors l) (h : s.engine.Accounts lookups rows)
    (steps : List ((ShapeCache → ShapeCache) × Request))
    (hsteps : ∀ step ∈ steps, ∀ c, (step.1 c).answered = c.answered) :
    (s.afterAmid steps).engine.Accounts
      (lookups.map (· + steps.countP fun step => step.2.makesClosure))
      (rows ++ s.askedAmid steps) := by
  induction steps generalizing s l lookups rows with
  | nil =>
    rw [Session.askedAmid, List.append_nil]
    exact h.consult rfl (h.answered.trans Option.map_id'.symm)
  | cons step steps ih =>
    obtain ⟨change, r⟩ := step
    have hchanged : (s.withEngine (s.engine.mapCache change)).engine.Accounts lookups rows :=
      h.mapCache (hsteps _ List.mem_cons_self)
    have hmirrors := hs.mapCache change
    have hrest := ih (hmirrors.perform r) (hmirrors.accounts_perform hchanged r)
      fun step hstep => hsteps step (List.mem_cons_of_mem _ hstep)
    have hlookups : (lookups.map (· + r.makesClosure.toNat)).map
        (· + steps.countP fun step => step.2.makesClosure) =
          lookups.map (· + ((change, r) :: steps).countP fun step => step.2.makesClosure) := by
      rw [Option.map_map]
      congr 1
      funext n
      simp only [Function.comp_apply, List.countP_cons, Bool.toNat, Bool.cond_eq_ite]
      omega
    rwa [hlookups, List.append_assoc] at hrest

theorem accounts_start (settings : Option Settings) :
    (start settings).engine.Accounts (start settings).engine.answered [] where
  answered := rfl
  table k t hk := by
    cases settings <;> cases hk
  known k hk := by cases hk

theorem answered_start {settings : Option Settings}
    (h : settings.any Settings.usesCache = true) :
    (start settings).engine.answered = some 0 := by
  cases settings with
  | none => cases h
  | some given =>
    have huses : given.usesCache = true := h
    simp only [start, Engine.answered, Engine.ofSettings, if_pos huses]
    rfl

end Session

/-- The hits and misses of a cache come to the number of closures that were made, and what
a table has saved and stored comes to the number of rows that were asked of it, by whatever
closure; this holds at any time of a session, and whatever happens to the cache
meanwhile that is no look-up. With fewer than `2 ^ 64` closures and rows, no number is too
large for a counter of 64 bits. -/
theorem counters_account_for_requests (settings : Option Settings)
    (steps : List ((ShapeCache → ShapeCache) × Request))
    (hsteps : ∀ step ∈ steps, ∀ c, (step.1 c).answered = c.answered) :
    let s := (Session.start settings).afterAmid steps
    (settings.any Settings.usesCache = true →
      ∃ c, s.engine.cache = some c ∧
        c.counters.hits + c.counters.misses = steps.countP fun step => step.2.makesClosure) ∧
      ∀ (k : Nat) (t : RowTable), s.engine.tables[k]? = some t →
        t.savings + t.rows.length = ((Session.start settings).askedAmid steps).count k ∧
          (t.rows.map Prod.fst).Nodup := by
  intro s
  have haccounts := (Session.mirrors_start settings).accounts_afterAmid
    (Session.accounts_start settings) steps hsteps
  rw [List.nil_append] at haccounts
  refine ⟨fun hcache => ?_, fun k t hk => ?_⟩
  · have hanswered := haccounts.answered
    rw [Session.answered_start hcache, Option.map_some, Nat.zero_add] at hanswered
    exact Option.map_eq_some_iff.1 hanswered
  · exact ⟨(haccounts.table k t hk).total, (haccounts.table k t hk).nodup⟩

/-- Two closures share a table, and keep it when the cache has given up its slots and a
third closure of the same graph gets a new one. -/
def sharedRun : List ((ShapeCache → ShapeCache) × Request) :=
  [(id, .add "g" owner [(⟨"member", "member", .field⟩, .assigned)]), (id, .close "g" "first"),
    (id, .linksOfAll "first"), (id, .close "g" "second"),
    (fun c => { c with slots := [] }, .close "g" "third"), (id, .links "second" owner none),
    (id, .links "third" owner none)]

theorem counters_account_for_requests_shared :
    let s := (Session.start (some .unset)).afterAmid sharedRun
    (∃ c, s.engine.cache = some c ∧ c.counters.hits + c.counters.misses = 3) ∧
      ∀ t, s.engine.tables[0]? = some t → t.savings + t.rows.length = 3 := by
  have hsteps : ∀ step ∈ sharedRun, ∀ c, (step.1 c).answered = c.answered := by
    simp [sharedRun, ShapeCache.answered]
  have hasked : (Session.start (some .unset)).askedAmid sharedRun = [0, 0, 0, 1] := by
    decide +kernel
  obtain ⟨hlookups, hrows⟩ := counters_account_for_requests (some .unset) sharedRun hsteps
  refine ⟨hlookups rfl, fun t ht => ?_⟩
  rw [(hrows 0 t ht).1, hasked]
  rfl

end LinkClosure
