/-
What calls that only look have seen, among callers that write.

Lookups, walks over a directory and reads take no locks. Each of their
store calls sees the committed store of one instant, and by the time the
call returns that instant is over. What they return is still never made
up from two: a lookup's number is that of the entry at one instant, a
walk lists the directory as it was at its Seek, and every extent that a
read delivers is the extent at the instant of its Get.

# From replies to states

A call that returns took one way through its text, and each reply on it
was given in a state of the run (Lib/Instants.lean). What such a reply
says of the state follows from the invariant there: `entry_reply` and
`record_reply` for meta_cf, `brings_reply` for an extent.

# From ways to answers

Per function one lemma says what a way that ends well looks like:
`path_vnLookupInodeNo`, `path_iterateDir` and `path_readSegments`, the
latter two by induction over their loops with what the calls reply left
open (`FindsRecords`, `FindsExtents`). The results put the two together.

# Failed reads

A failed `Get` of an entry or of a record ends the call, since a number or
an inode is decoded from nothing, but for one case: a lookup whose first
`Get` failed can answer that the name is not there. A failed `Get` of an
extent delivers zeros.
-/
import ViveNas.Lib.Instants
import ViveNas.Proofs.Read
import ViveNas.Proofs.Upkeep

namespace ViveNas

open LittleEndian Overlay Paging Pool Trace ViveDataMergeOperator

variable {A : Type} {F : Lasting A} {codec : SuperblockCodec}
  {tr : List ServiceLabel} {n n' n₁ n₂ : Service} {i : Nat}

-- ============================================================== instants

/-- The run came by the state while caller `i` was there. -/
abbrev Meanwhile (codec : SuperblockCodec) (F : Lasting A)
    (tr : List ServiceLabel) (n : Service) (i : Nat) (n₁ : Service) : Prop :=
  During (service codec) (Proper F) (Service.Fresh codec) tr n i n₁

abbrev ServiceInstant :=
  Instant StoreCall StoreCall.Resp Fault Answer Shared (Option Tx) Task

abbrev CallInstants (codec : SuperblockCodec) (F : Lasting A)
    (tr : List ServiceLabel) (n : Service) (i : Nat) (task : Task)
    (es : List ServiceInstant) : Prop :=
  Instants (service codec) (Proper F) (Service.Fresh codec) tr n i task es

/-- The calls a caller made, when it returns. -/
theorem call_instants (hrun : ServiceRun codec (Proper F) tr n) {task : Task}
    {a : Answer} (hstep : Step (service codec) (Proper F) n
      (.ret i task a) n') :
    ∃ es, task.prog.Path (es.map Instant.seen) (.ok a)
      ∧ CallInstants codec F tr n i task es :=
  returned_instants (fun _ hn => hn.1) hrun hstep

/-- A read saw the committed store of its instant. -/
theorem replies_of_instant {task : Task} {es : List ServiceInstant}
    (hes : CallInstants codec F tr n i task es) {e : ServiceInstant}
    (he : e ∈ es) {cf : Cf} {key : Bytes} {r : GetStatus}
    (hseen : e.seen = ⟨.get cf key, r⟩) :
    e.state.shared.db.Replies cf key r := by
  obtain ⟨state, call, reply⟩ := e
  cases hseen
  obtain ⟨t, s', t', hreply⟩ := hes.replied _ he
  exact hreply.1

/-- What matches at an instant matches at later ones. -/
theorem keeps_of_goes (hrun : ServiceRun codec (Proper F) tr n)
    {tr' : List ServiceLabel}
    (hgoes : Goes (Step (service codec) (Proper F)) n tr' n') :
    Keeps F n.shared.db n'.shared.db :=
  hrun.keeps (R := fun n n' => Keeps F n.shared.db n'.shared.db)
    (fun _ _ h => h) Keeps.trans
    (fun _ _ _ _ hrun hstep => (upholds_of_step hrun hstep).keeps) hgoes

theorem recorded_of_goes (hrun : ServiceRun codec (Proper F) tr n)
    {tr' : List ServiceLabel}
    (hgoes : Goes (Step (service codec) (Proper F)) n tr' n') {m : Nat}
    (hm : FileNo m) (hrec : n.shared.db.Recorded m) :
    n'.shared.db.Recorded m := by
  obtain ⟨c, g, inv⟩ := upkeep_of_run hrun
  exact (keeps_of_goes hrun hgoes).recorded inv.stores.db hm hrec

/-- What a read of a record that is there replies. -/
theorem record_reply (hrun : ServiceRun codec (Proper F) tr n) {m : Nat}
    (hm : FileNo m) (hrec : n.shared.db.Recorded m) {r : GetStatus}
    (hr : n.shared.db.Replies .metaCf (inodeKey m) r) :
    r = .failed ∨ ∃ rec : ViveInode, Genuine m rec
      ∧ n.shared.db.metaCf[inodeKey m]? = some rec.toBytes
      ∧ r = .ok rec.toBytes := by
  obtain ⟨c, g, inv⟩ := upkeep_of_run hrun
  obtain ⟨-, rec, hgen, hget⟩ := inv.stores.db.record hm hrec
  cases r with
  | failed => exact Or.inl rfl
  | notFound =>
      have hnone : n.shared.db.metaCf[inodeKey m]? = none := Except.ok.inj hr
      cases hget.symm.trans hnone
  | ok v =>
      have hsome : n.shared.db.metaCf[inodeKey m]? = some v := Except.ok.inj hr
      rw [hget] at hsome
      exact Or.inr ⟨rec, hgen, hget,
        congrArg GetStatus.ok (Option.some.inj hsome).symm⟩

/-- What a read of an entry replies. -/
theorem entry_reply (hrun : ServiceRun codec (Proper F) tr n) {p : Int}
    {a : FileName} {r : GetStatus}
    (hr : n.shared.db.Replies .metaCf (fileKey p a) r) :
    r = .failed ∨ (r = .notFound ∧ n.shared.db.metaCf[fileKey p a]? = none)
      ∨ ∃ m, FileNo m ∧ n.shared.db.Recorded m ∧ r = .ok (inodeKey m)
        ∧ n.shared.db.metaCf[fileKey p a]? = some (inodeKey m) := by
  obtain ⟨c, g, inv⟩ := upkeep_of_run hrun
  cases r with
  | failed => exact Or.inl rfl
  | notFound => exact Or.inr (Or.inl ⟨rfl, Except.ok.inj hr⟩)
  | ok v =>
      have hentry : n.shared.db.metaCf[fileKey p a]? = some v :=
        Except.ok.inj hr
      obtain ⟨m, hm, hrec, rfl⟩ := inv.stores.db.entry hentry
      exact Or.inr (Or.inr ⟨m, hm, hrec, rfl, hentry⟩)

-- ================================================================ lookups

/-- A program followed by a return. -/
theorem path_of_map {α β : Type} {p : Fs α} {f : α → β} {b : β}
    {log : List (Σ c : StoreCall, c.Resp)}
    (h : (p >>= fun a => (pure (f a) : Fs β)).Path log (.ok b)) :
    ∃ a, p.Path log (.ok a) ∧ b = f a := by
  obtain ⟨e, -, he⟩ | ⟨a, log₁, log₂, rfl, hp, hlog, hb⟩ := h.bind_inv
  · cases he
  · rw [hlog, List.append_nil]
    exact ⟨a, hp, Except.ok.inj hb⟩

/-- The ways a lookup can go: the calls it makes, with their replies, and
what it returns. -/
inductive LookupLog (p : Int) (a : FileName) :
    Bool → List (Σ c : StoreCall, c.Resp) → Int → Option ViveInode → Prop where
  | unnamed {want : Bool} :
      LookupLog p a want [⟨.get .metaCf (fileKey p a), .notFound⟩] (-1) none
  | number {st : GetStatus} {k : Nat} (hst : st ≠ .notFound)
      (hload : loadInt64 st.slice = .ok k) :
      LookupLog p a false [⟨.get .metaCf (fileKey p a), st⟩] (asInt64 k) none
  | lost {st : GetStatus} (hst : st ≠ .notFound) :
      LookupLog p a true [⟨.get .metaCf (fileKey p a), st⟩,
        ⟨.get .metaCf st.slice, .notFound⟩] (-1) none
  | found {st st' : GetStatus} {k : Nat} {x : ViveInode}
      (hst : st ≠ .notFound) (hload : loadInt64 st.slice = .ok k)
      (hinode : deserializeInode st'.slice = .ok x) :
      LookupLog p a true [⟨.get .metaCf (fileKey p a), st⟩,
        ⟨.get .metaCf st.slice, st'⟩] (asInt64 k) (some x)

theorem path_vnLookupInodeNo {p : Int} {a : FileName} {want : Bool}
    {log : List (Σ c : StoreCall, c.Resp)} {r : Int}
    {inode : Option ViveInode}
    (h : (vnLookupInodeNo p a want).Path log (.ok (r, inode))) :
    LookupLog p a want log r inode := by
  obtain ⟨st, rest, rfl, hrest⟩ := h
  cases st with
  | notFound =>
      obtain ⟨rfl, hpair⟩ := hrest
      cases hpair
      exact .unnamed
  | failed =>
      -- no number is loaded from the empty slice
      cases want with
      | false => cases hrest.2
      | true =>
          obtain ⟨st', rest', rfl, hrest'⟩ := hrest
          cases st' with
          | notFound =>
              obtain ⟨rfl, hpair⟩ := hrest'
              cases hpair
              exact .lost (fun h => by cases h)
          | failed => cases hrest'.2
          | ok u =>
              obtain ⟨x, -, hend⟩ := Prog.Path.ofExcept_inv hrest'
              cases hend.2
  | ok v =>
      cases want with
      | false =>
          obtain ⟨k, hload, rfl, hpair⟩ := Prog.Path.ofExcept_inv
            (x := loadInt64 v) hrest
          cases hpair
          exact @LookupLog.number p a (.ok v) k (fun h => by cases h) hload
      | true =>
          obtain ⟨st', rest', rfl, hrest'⟩ := hrest
          cases st' with
          | notFound =>
              obtain ⟨rfl, hpair⟩ := hrest'
              cases hpair
              exact @LookupLog.lost p a (.ok v) (fun h => by cases h)
          | failed => cases hrest'.2
          | ok u =>
              obtain ⟨x, hinode, hrest₂⟩ := Prog.Path.ofExcept_inv
                (x := deserializeInode u) hrest'
              obtain ⟨k, hload, rfl, hpair⟩ := Prog.Path.ofExcept_inv
                (x := loadInt64 v) hrest₂
              cases hpair
              exact @LookupLog.found p a (.ok v) (.ok u) k x
                (fun h => by cases h) hload hinode

section LookupLog

variable {p : Int} {a : FileName} {want : Bool} {r : Int}
  {inode : Option ViveInode} {log rest : List (Σ c : StoreCall, c.Resp)}

/-- The entry is read first. -/
theorem LookupLog.first (h : LookupLog p a want log r inode) :
    ∃ st rest, log = ⟨.get .metaCf (fileKey p a), st⟩ :: rest := by
  cases h <;> exact ⟨_, _, rfl⟩

theorem LookupLog.missing (h : LookupLog p a want
    (⟨.get .metaCf (fileKey p a), .notFound⟩ :: rest) r inode) :
    r = -1 ∧ inode = none := by
  cases h with
  | unnamed => exact ⟨rfl, rfl⟩
  | number hne _ | lost hne | found hne _ _ => exact absurd rfl hne

/-- After a number was read, nothing is wanted but it, or its record is
read. -/
theorem LookupLog.numbered {m : Nat} (hm : FileNo m)
    (h : LookupLog p a want
      (⟨.get .metaCf (fileKey p a), .ok (inodeKey m)⟩ :: rest) r inode) :
    (want = false ∧ r = m ∧ inode = none)
      ∨ want = true ∧ ∃ st, rest = [⟨.get .metaCf (inodeKey m), st⟩]
        ∧ (st = .notFound ∨ ∃ x, deserializeInode st.slice = .ok x
          ∧ r = m ∧ inode = some x) := by
  have hload := hm.load
  generalize hlog : (⟨.get .metaCf (fileKey p a), .ok (inodeKey m)⟩ :
    Σ c : StoreCall, c.Resp) :: rest = log at h
  cases h with
  | unnamed => cases hlog
  | @number st k hne hk =>
      obtain ⟨rfl, -⟩ : GetStatus.ok (inodeKey m) = st ∧ rest = [] := by
        cases hlog
        exact ⟨rfl, rfl⟩
      obtain rfl := Except.ok.inj (hload.symm.trans hk)
      exact Or.inl ⟨rfl, asInt64_of_lt hm.lt, rfl⟩
  | @lost st hne =>
      cases hlog
      exact Or.inr ⟨rfl, _, rfl, Or.inl rfl⟩
  | @found st st' k x hne hk hinode =>
      cases hlog
      obtain rfl := Except.ok.inj (hload.symm.trans hk)
      exact Or.inr ⟨rfl, st', rfl, Or.inr ⟨x, hinode,
        asInt64_of_lt hm.lt, rfl⟩⟩

end LookupLog

/-- The first instant of a call whose first call is a `Get`. -/
theorem first_instant {task : Task} {es : List ServiceInstant} {cf : Cf}
    {key : Bytes} {st : GetStatus} {rest : List (Σ c : StoreCall, c.Resp)}
    (hes : CallInstants codec F tr n i task es)
    (hmap : es.map Instant.seen = ⟨.get cf key, st⟩ :: rest) :
    ∃ n₁ es', es = ⟨n₁, .get cf key, st⟩ :: es'
      ∧ es'.map Instant.seen = rest ∧ Meanwhile codec F tr n i n₁
      ∧ n₁.shared.db.Replies cf key st := by
  obtain ⟨⟨n₁, call, reply⟩, es', rfl, hseen, hrest⟩ :=
    List.map_eq_cons_iff.mp hmap
  cases hseen
  exact ⟨n₁, es', rfl, hrest, hes.during _ List.mem_cons_self,
    replies_of_instant hes List.mem_cons_self rfl⟩

/-- A later one, of a record that was there at the first. -/
theorem record_instant {task : Task} {es : List ServiceInstant}
    {e : ServiceInstant} {m : Nat} {st : GetStatus}
    (hes : CallInstants codec F tr n i task (e :: es)) (hm : FileNo m)
    (hrec : e.state.shared.db.Recorded m)
    (hmap : es.map Instant.seen = [⟨.get .metaCf (inodeKey m), st⟩]) :
    st = .failed ∨ ∃ n₂ rec tr', Meanwhile codec F tr n i n₂
      ∧ Goes (Step (service codec) (Proper F)) e.state tr' n₂
      ∧ Genuine m rec
      ∧ n₂.shared.db.metaCf[inodeKey m]? = some rec.toBytes
      ∧ st = .ok rec.toBytes := by
  obtain ⟨e₂, es₂, rfl, hseen, -⟩ := List.map_eq_cons_iff.mp hmap
  have he₂ : e₂ ∈ e :: e₂ :: es₂ :=
    List.mem_cons_of_mem _ List.mem_cons_self
  have hduring := hes.during e₂ he₂
  obtain ⟨tr', hgoes⟩ := List.rel_of_pairwise_cons hes.order
    (List.mem_cons_self (a := e₂) (l := es₂))
  obtain ⟨tr₁, hrun₁⟩ := (hes.during e List.mem_cons_self).reached
  obtain ⟨tr₂, hrun₂⟩ := hduring.reached
  rcases record_reply hrun₂ hm (recorded_of_goes hrun₁ hgoes hm hrec)
    (replies_of_instant hes he₂ hseen) with hst | ⟨rec, hgen, hget, hst⟩
  · exact Or.inl hst
  · exact Or.inr ⟨e₂.state, rec, tr', hduring, hgoes, hgen, hget, hst⟩

/-- A lookup answers for one instant of its call: no entry was there, or
the entry with that number; and the inode is the number's record at an
instant of the call after that. Only if its own read of the entry fails
can it say otherwise; if that of the record does, it does not return. -/
theorem lookup_is_atomic (hrun : ServiceRun codec (Proper F) tr n)
    {p : Int} {a : FileName} {want : Bool} {r : Int}
    {inode : Option ViveInode}
    (hstep : Step (service codec) (Proper F) n
      (.ret i (.lookup p a want) (.inode r inode)) n')
    (hread : ¬ Since tr i (.call i (.lookup p a want)
      (.get .metaCf (fileKey p a)) .failed)) :
    (r = -1 ∧ inode = none ∧ ∃ n₁, Meanwhile codec F tr n i n₁
        ∧ n₁.shared.db.metaCf[fileKey p a]? = none)
      ∨ ∃ m n₁, FileNo m ∧ r = m ∧ Meanwhile codec F tr n i n₁
        ∧ n₁.shared.db.metaCf[fileKey p a]? = some (inodeKey m)
        ∧ (want = false → inode = none)
        ∧ (want = true → ∃ n₂ rec tr', Meanwhile codec F tr n i n₂
          ∧ Goes (Step (service codec) (Proper F)) n₁ tr' n₂
          ∧ Genuine m rec
          ∧ n₂.shared.db.metaCf[inodeKey m]? = some rec.toBytes
          ∧ inode = some { rec with refCnt := 1 }) := by
  obtain ⟨es, hpath, hes⟩ := call_instants hrun hstep
  obtain ⟨⟨r₀, inode₀⟩, hlook, hres⟩ := path_of_map
    (f := fun x : Int × Option ViveInode => Answer.inode x.1 x.2) hpath
  obtain ⟨rfl, rfl⟩ : r₀ = r ∧ inode₀ = inode := by
    cases hres
    exact ⟨rfl, rfl⟩
  have hlog := path_vnLookupInodeNo hlook
  obtain ⟨st, rest, hmap⟩ := hlog.first
  rw [hmap] at hlog
  obtain ⟨n₁, es₁, rfl, rfl, hduring₁, hreplies⟩ := first_instant hes hmap
  obtain ⟨tr₁, hrun₁⟩ := hduring₁.reached
  rcases entry_reply hrun₁ hreplies
    with rfl | ⟨rfl, hnone⟩ | ⟨m, hm, hrec, rfl, hentry⟩
  · exact absurd (hes.made _ List.mem_cons_self).since hread
  · obtain ⟨rfl, rfl⟩ := hlog.missing
    exact Or.inl ⟨rfl, rfl, n₁, hduring₁, hnone⟩
  right
  rcases hlog.numbered hm with ⟨rfl, rfl, rfl⟩ | ⟨rfl, st, hrest, hst⟩
  · exact ⟨m, n₁, hm, rfl, hduring₁, hentry, fun _ => rfl,
      fun h => by cases h⟩
  -- records are forever, so the second read finds one if it succeeds
  rcases record_instant hes hm hrec hrest with rfl
    | ⟨n₂, rec, tr', hduring₂, hgoes, hgen, hget, rfl⟩
  · rcases hst with hst | ⟨x, hinode, -, -⟩
    · cases hst
    · cases hinode
  · rcases hst with hst | ⟨x, hinode, rfl, rfl⟩
    · cases hst
    have hx := (deserializeInode_toBytes rec).symm.trans hinode
    refine ⟨m, n₁, hm, rfl, hduring₁, hentry, fun h => (by cases h),
      fun _ => ⟨n₂, rec, tr', hduring₂, hgoes, hgen, hget, ?_⟩⟩
    rw [Except.ok.inj hx]

theorem lookup_is_atomic_firstFile : ∃ tr n n' inode,
    ServiceRun plainCodec (Proper attributes) tr n
      ∧ Step (service plainCodec) (Proper attributes) n
        (.ret 0 (.lookup vnRootIno nameA true)
          (.inode vnFirstUserIno inode)) n'
      ∧ ∃ n₁, Meanwhile plainCodec attributes tr n 0 n₁
        ∧ n₁.shared.db.metaCf[fileKey vnRootIno nameA]?
          = some (inodeKey vnFirstUserIno) := by
  have hexec : (Task.lookup vnRootIno nameA true).prog.exec
      (oneFileSys plainCodec 0 0).world
      = .ok (.inode vnFirstUserIno _, (oneFileSys plainCodec 0 0).world) :=
    exec_bind_ok (exec_vnLookup_inode (w := (oneFileSys plainCodec 0 0).world)
      rfl (oneFileSys_entry 0 0) (by decide) (oneFileSys_record 0 0))
  obtain ⟨tr, n, n', hrun, hstep, hreads⟩ := run_secondTask
    (F := attributes)
    ⟨fun n hn => (by cases hn), fun f hf => (by cases hf)⟩ hexec trivial
    (show vnFirstUserIno + 1 < plainNos by decide)
  refine ⟨tr, n, n', _, hrun, hstep, ?_⟩
  rcases lookup_is_atomic hrun hstep fun h => hreads _ _ _ _ h.mem
    with ⟨hr, -⟩ | ⟨m, n₁, -, hr, hduring, hentry, -⟩
  · exact absurd hr (by decide)
  · obtain rfl : vnFirstUserIno = m := by
      have h : (vnFirstUserIno : Int) = m := hr
      omega
    exact ⟨n₁, hduring, hentry⟩

-- ================================================================= walks

section Walk

variable {dir : Bytes} {bufLen : Nat} {Num : Nat → Prop}
  {Got : Nat → ViveInode → Prop} {log : List (Σ c : StoreCall, c.Resp)}

/-- The reads of records among the calls: each that does not fail finds
the record of a number it may ask for. -/
def FindsRecords (Num : Nat → Prop) (Got : Nat → ViveInode → Prop)
    (log : List (Σ c : StoreCall, c.Resp)) : Prop :=
  ∀ m st, Num m → (⟨.get .metaCf (inodeKey m), st⟩ :
    Σ c : StoreCall, c.Resp) ∈ log →
    st = .failed ∨ ∃ rec, Got m rec ∧ st = .ok rec.toBytes

/-- A key and its value, and what the walk makes of them. -/
def ListedAs (dir : Bytes) (Num : Nat → Prop)
    (Got : Nat → ViveInode → Prop) (kv : Bytes × Bytes)
    (e : Bytes × ViveInode) : Prop :=
  e.1 = kv.1.drop dir.length ∧ ∃ m rec, Num m ∧ loadInt64 kv.2 = .ok m
    ∧ Got m rec ∧ e.2 = { rec with refCnt := 1 }

theorem path_vnNextInode {k v : Bytes} {rest : List (Bytes × Bytes)} {m : Nat}
    {entry : Option (ViveInode × Bytes)} {it : VnInodeIterator}
    (hpre : dir.isPrefixOf k = true) (hm : Num m)
    (hload : loadInt64 v = .ok m) (hfinds : FindsRecords Num Got log)
    (h : (vnNextInode ⟨(k, v) :: rest, dir⟩ bufLen).Path log
      (.ok (entry, it))) :
    it = ⟨rest, dir⟩ ∧ ∃ rec : ViveInode, Got m rec
      ∧ entry = some ({ rec with refCnt := 1 }, k.drop dir.length) := by
  rw [vnNextInode] at h
  dsimp only at h
  rw [if_pos hpre] at h
  obtain ⟨m', hload', hget⟩ := Prog.Path.ofExcept_inv h
  obtain rfl := Except.ok.inj (hload.symm.trans hload')
  obtain ⟨st, log', rfl, hgot⟩ := hget
  rcases hfinds m st hm List.mem_cons_self with rfl | ⟨rec, hrec, hst⟩
  · cases hgot.2
  obtain ⟨u, hu⟩ : ∃ u, u = rec.toBytes := ⟨_, rfl⟩
  rw [← hu] at hst
  subst hst
  obtain ⟨x, hx, hend⟩ := Prog.Path.ofExcept_inv (x := deserializeInode u) hgot
  rw [hu, deserializeInode_toBytes] at hx
  obtain rfl := Except.ok.inj hx
  split at hend
  case isTrue => cases hend.2
  case isFalse =>
      split at hend
      case isTrue => cases hend.2
      case isFalse =>
          cases hend.2
          exact ⟨rfl, rec, hrec, rfl⟩

/-- A walk that ends has listed the keys with the prefix, in order. -/
theorem path_iterateDir {fuel : Nat} {kvs : List (Bytes × Bytes)}
    {out : List (Bytes × ViveInode)}
    (hlist : ∀ kv ∈ kvs, dir.isPrefixOf kv.1 = true →
      ∃ m, Num m ∧ loadInt64 kv.2 = .ok m)
    (hfinds : FindsRecords Num Got log)
    (h : (iterateDir bufLen fuel ⟨kvs, dir⟩).Path log (.ok out)) :
    List.Forall₂ (ListedAs dir Num Got)
      (kvs.takeWhile fun kv => dir.isPrefixOf kv.1) out := by
  induction fuel generalizing kvs log out with
  | zero => cases h.2
  | succ fuel ih =>
      rw [iterateDir] at h
      cases kvs with
      | nil =>
          cases h.2
          exact .nil
      | cons kv kvs =>
          obtain ⟨k, v⟩ := kv
          have hnext : vnIteratorHasNext ⟨(k, v) :: kvs, dir⟩
              = dir.isPrefixOf k := rfl
          rw [hnext] at h
          rw [List.takeWhile_cons]
          cases hpre : dir.isPrefixOf k with
          | false =>
              rw [hpre] at h
              cases h.2
              exact .nil
          | true =>
              rw [hpre, if_pos rfl] at h
              obtain ⟨m, hm, hload⟩ := hlist (k, v) List.mem_cons_self hpre
              obtain ⟨e, -, he⟩ | ⟨⟨entry, it⟩, log₁, log₂, rfl, hfirst,
                h⟩ := h.bind_inv
              · cases he
              obtain ⟨rfl, rec, hgot, rfl⟩ := path_vnNextInode hpre hm hload
                (fun m st hm hmem => hfinds m st hm
                  (List.mem_append_left _ hmem)) hfirst
              obtain ⟨es, hes, rfl⟩ := path_of_map
                (f := fun es => (k.drop dir.length, _) :: es) h
              refine .cons ⟨rfl, m, rec, hm, hload, hgot, rfl⟩ (ih ?_ ?_ hes)
              · exact fun kv hkv => hlist kv (List.mem_cons_of_mem _ hkv)
              · exact fun m st hm hmem => hfinds m st hm
                  (List.mem_append_right _ hmem)

/-- The names listed, and where the rest of an entry is from. -/
theorem names_of_listed {kvs : List (Bytes × Bytes)}
    {es : List (Bytes × ViveInode)}
    (h : List.Forall₂ (ListedAs dir Num Got) kvs es) :
    es.map Prod.fst = kvs.map (fun kv => kv.1.drop dir.length)
      ∧ ∀ e ∈ es, ∃ kv ∈ kvs, ListedAs dir Num Got kv e := by
  induction h with
  | nil => exact ⟨rfl, fun e he => by cases he⟩
  | @cons kv e kvs es hkv _ ih =>
      refine ⟨?_, fun e' he' => ?_⟩
      · rw [List.map_cons, List.map_cons, hkv.1, ih.1]
      · rcases List.mem_cons.mp he' with rfl | he'
        · exact ⟨kv, List.mem_cons_self, hkv⟩
        · obtain ⟨kv', hmem, hkv'⟩ := ih.2 e' he'
          exact ⟨kv', List.mem_cons_of_mem _ hmem, hkv'⟩

end Walk

section Under

variable {db : Store} {d : Int}

theorem mem_under {kv : Bytes × Bytes} :
    kv ∈ (db.metaCf.toList.filter fun kv => (dirPrefix d).isPrefixOf kv.1)
      ↔ db.metaCf[kv.1]? = some kv.2 ∧ dirPrefix d <+: kv.1 := by
  rw [List.mem_filter, Std.ExtTreeMap.mem_toList_iff_getElem?_eq_some,
    List.isPrefixOf_iff_prefix]

theorem mem_names_under {name : Bytes} :
    name ∈ (db.metaCf.toList.filter fun kv =>
        (dirPrefix d).isPrefixOf kv.1).map
          (fun kv => kv.1.drop (dirPrefix d).length)
      ↔ ∃ key v, db.metaCf[key]? = some v ∧ dirPrefix d <+: key
        ∧ name = key.drop (dirPrefix d).length := by
  rw [List.mem_map]
  constructor
  · intro h
    obtain ⟨⟨key, v⟩, hkv, rfl⟩ := h
    obtain ⟨hget, hpre⟩ := mem_under.mp hkv
    exact ⟨key, v, hget, hpre, rfl⟩
  · intro h
    obtain ⟨key, v, hget, hpre, rfl⟩ := h
    exact ⟨(key, v), mem_under.mpr ⟨hget, hpre⟩, rfl⟩

/-- After one prefix, keys that differ go on differently. -/
theorem nodup_names_under (db : Store) (d : Int) :
    ((db.metaCf.toList.filter fun kv => (dirPrefix d).isPrefixOf kv.1).map
      fun kv => kv.1.drop (dirPrefix d).length).Nodup := by
  refine List.Nodup.map_on (fun kv hkv kv' hkv' hname => ?_)
    (nodup_toList_filter _ _)
  obtain ⟨hget, rest, hrest⟩ := mem_under.mp hkv
  obtain ⟨hget', rest', hrest'⟩ := mem_under.mp hkv'
  rw [← hrest, ← hrest', List.drop_left, List.drop_left] at hname
  have hkey : kv.1 = kv'.1 := by rw [← hrest, ← hrest', hname]
  rw [hkey, hget'] at hget
  exact Prod.ext hkey (Option.some.inj hget).symm

/-- The name of a file is listed if it has an entry, whatever else has a key
with the prefix. -/
theorem mem_names_under_file {a : FileName} :
    a.val ∈ (db.metaCf.toList.filter fun kv =>
        (dirPrefix d).isPrefixOf kv.1).map
          (fun kv => kv.1.drop (dirPrefix d).length)
      ↔ ∃ v, db.metaCf[fileKey d a]? = some v := by
  rw [mem_names_under]
  constructor
  · intro h
    obtain ⟨key, v, hget, ⟨rest, rfl⟩, hname⟩ := h
    rw [List.drop_left] at hname
    rw [fileKey, hname]
    exact ⟨v, hget⟩
  · intro h
    obtain ⟨v, hget⟩ := h
    exact ⟨fileKey d a, v, hget, List.prefix_append _ _,
      by rw [fileKey, List.drop_left]⟩

end Under

/-- What a walk lists beside a name: the record, at a later instant `n₂`, of
the number the name's entry had at `n₁`. A name that is none is the rest
of a record's key that starts like the directory's. -/
def ListedFrom (codec : SuperblockCodec) (F : Lasting A)
    (tr : List ServiceLabel) (n : Service) (i : Nat) (n₁ : Service) (d : Int)
    (e : Bytes × ViveInode) : Prop :=
  ∃ m n₂ rec tr', FileNo m
    ∧ ((∃ a : FileName, e.1 = a.val
        ∧ n₁.shared.db.metaCf[fileKey d a]? = some (inodeKey m))
      ∨ (n₁.shared.db.Recorded m ∧ inodeKey m = dirPrefix d ++ e.1))
    ∧ Meanwhile codec F tr n i n₂
    ∧ Goes (Step (service codec) (Proper F)) n₁ tr' n₂
    ∧ Genuine m rec ∧ n₂.shared.db.metaCf[inodeKey m]? = some rec.toBytes
    ∧ e.2 = { rec with refCnt := 1 }

/-- The records that the reads of a walk find, after its Seek at `e₁`. -/
theorem finds_after_seek {task : Task} {e₁ : ServiceInstant}
    {es : List ServiceInstant} {tr₁ : List ServiceLabel}
    (hins : CallInstants codec F tr n i task (e₁ :: es))
    (hrun₁ : ServiceRun codec (Proper F) tr₁ e₁.state) : FindsRecords
      (fun m => FileNo m ∧ e₁.state.shared.db.Recorded m)
      (fun m rec => Genuine m rec ∧ ∃ n₂ tr', Meanwhile codec F tr n i n₂
        ∧ Goes (Step (service codec) (Proper F)) e₁.state tr' n₂
        ∧ n₂.shared.db.metaCf[inodeKey m]? = some rec.toBytes)
      (es.map Instant.seen) := by
  intro m st hm hmem
  obtain ⟨e₂, he₂, hseen₂⟩ := List.mem_map.mp hmem
  have he₂' : e₂ ∈ e₁ :: es := List.mem_cons_of_mem _ he₂
  have hduring₂ := hins.during e₂ he₂'
  obtain ⟨tr', hgoes⟩ := List.rel_of_pairwise_cons hins.order he₂
  obtain ⟨tr₂, hrun₂⟩ := hduring₂.reached
  rcases record_reply hrun₂ hm.1 (recorded_of_goes hrun₁ hgoes hm.1 hm.2)
    (replies_of_instant hins he₂' hseen₂) with hst | ⟨rec, hgen, hget, hst⟩
  · exact Or.inl hst
  · exact Or.inr ⟨rec, ⟨hgen, e₂.state, tr', hduring₂, hgoes, hget⟩, hst⟩

/-- A walk that ends has the directory as it was in the state `n₁` in which
it made its Seek: each name that had an entry then once, and beside it the
record of that entry's number at an instant of the call after that. What
else it lists has the key of a file's record. -/
theorem listing_is_a_snapshot (hrun : ServiceRun codec (Proper F) tr n)
    {d : Int} {bufLen fuel : Nat} {es : List (Bytes × ViveInode)}
    (hstep : Step (service codec) (Proper F) n
      (.ret i (.listDir d bufLen fuel) (.entries es)) n') :
    ∃ n₁ tr₁ tr₂ kvs, tr = tr₂ ++ Label.call i (.listDir d bufLen fuel)
        (.seekMeta (dirPrefix d)) kvs :: tr₁
      ∧ ServiceRun codec (Proper F) tr₁ n₁
      ∧ (∀ task, Label.spawn i task ∉ tr₂)
      ∧ Meanwhile codec F tr n i n₁
      ∧ (es.map Prod.fst).Nodup
      ∧ (∀ a : FileName, a.val ∈ es.map Prod.fst
        ↔ ∃ v, n₁.shared.db.metaCf[fileKey d a]? = some v)
      ∧ ∀ e ∈ es, ListedFrom codec F tr n i n₁ d e := by
  obtain ⟨ins, hpath, hins⟩ := call_instants hrun hstep
  obtain ⟨kvs, log, hlog, hwalk⟩ := hpath
  obtain ⟨e₁, ins', rfl, hseek, rfl⟩ := List.map_eq_cons_iff.mp hlog
  have hduring₁ := hins.during e₁ List.mem_cons_self
  obtain ⟨t, s', t', hreply⟩ := hins.replied e₁ List.mem_cons_self
  obtain ⟨tr₁, tr₂, htr, hrun₁, hspawn⟩ := hins.made e₁ List.mem_cons_self
  obtain ⟨hcall, hkvs⟩ : tr = tr₂ ++ Label.call i (.listDir d bufLen fuel)
        (.seekMeta (dirPrefix d)) kvs :: tr₁
      ∧ kvs = e₁.state.shared.db.metaCf.seek (dirPrefix d) := by
    obtain ⟨state, call, rep⟩ := e₁
    cases hseek
    exact ⟨htr, hreply.1⟩
  have hfinds := finds_after_seek hins hrun₁
  obtain ⟨c, g, inv⟩ := upkeep_of_run hrun₁
  have hsound := inv.stores.db
  refine ⟨e₁.state, tr₁, tr₂, kvs, hcall, hrun₁, hspawn, hduring₁, ?_⟩
  obtain ⟨es', hes', hres⟩ := path_of_map (f := Answer.entries)
    (p := iterateDir bufLen fuel ⟨kvs, dirPrefix d⟩) hwalk
  obtain rfl : es = es' := by
    cases hres
    rfl
  have hnumbers : ∀ kv ∈ kvs, (dirPrefix d).isPrefixOf kv.1 = true →
      ∃ m, (FileNo m ∧ e₁.state.shared.db.Recorded m)
        ∧ loadInt64 kv.2 = .ok m := by
    intro kv hkv hpre
    obtain ⟨m, hm, hrec, hload, -⟩ := hsound.under (mem_seek (hkvs ▸ hkv))
      (List.isPrefixOf_iff_prefix.mp hpre)
    exact ⟨m, ⟨hm, hrec⟩, hload⟩
  have hlisted := path_iterateDir hnumbers hfinds hes'
  rw [hkvs, PrefixScan.seek_takeWhile] at hlisted
  obtain ⟨hnames, hfrom⟩ := names_of_listed hlisted
  refine ⟨hnames ▸ nodup_names_under _ d,
    fun a => hnames ▸ mem_names_under_file, fun e he => ?_⟩
  obtain ⟨⟨key, v⟩, hkv, hname, m, rec, ⟨hm, -⟩, hload, ⟨hgen, n₂, tr',
    hduring₂, hgoes, hrec⟩, hinode⟩ := hfrom e he
  obtain ⟨hget, hpre⟩ := mem_under.mp hkv
  obtain ⟨m', hm', hrec', hload', hkey⟩ := hsound.under hget hpre
  obtain rfl := Except.ok.inj (hload'.symm.trans hload)
  refine ⟨m', n₂, rec, tr', hm, ?_, hduring₂, hgoes, hgen, hrec, hinode⟩
  dsimp only at hname hget hpre hkey
  rcases hkey with ⟨a, rfl, rfl⟩ | rfl
  · rw [fileKey, List.drop_left] at hname
    exact Or.inl ⟨a, hname, hget⟩
  · rw [hname]
    exact Or.inr ⟨hrec', (List.prefix_iff_eq_append.mp hpre).symm⟩

theorem listing_is_a_snapshot_firstFile : ∃ tr n n' bufLen fuel es,
    ServiceRun plainCodec (Proper attributes) tr n
      ∧ Step (service plainCodec) (Proper attributes) n
        (.ret 0 (.listDir vnRootIno bufLen fuel) (.entries es)) n'
      ∧ nameA.val ∈ es.map Prod.fst
      ∧ ∃ n₁ v, Meanwhile plainCodec attributes tr n 0 n₁
        ∧ n₁.shared.db.metaCf[fileKey vnRootIno nameA]? = some v := by
  obtain ⟨sys, hsys⟩ := run_oneFile_clear
  obtain ⟨N, rel, -⟩ := run_noRecordUnder hsys
  obtain ⟨bufLen, hroom⟩ := exists_room (oneFileSys plainCodec 0 0).world.db
    vnRootIno
  obtain ⟨es, hlists, -, hmem⟩ := rel.exists_lists hroom
  have hentry : (oneFileSys plainCodec 0 0).world.db.metaCf[
      fileKey vnRootIno nameA]? = some _ := oneFileSys_entry 0 0
  have hpre : dirPrefix vnRootIno <+: fileKey vnRootIno nameA :=
    List.prefix_append _ _
  obtain ⟨e, hserved⟩ := rel.served (fileKey vnRootIno nameA, _) hentry hpre
    (hroom _ _ hentry hpre)
  have hname : nameA.val ∈ es.map Prod.fst := by
    refine List.mem_map.mpr ⟨e, (hmem e).mpr ⟨_, hentry, hpre, hserved⟩, ?_⟩
    rw [hserved.name_eq]
    dsimp only
    rw [fileKey, List.drop_left]
  obtain ⟨fuel, hwalk⟩ := (hlists es).mpr rfl
  rw [exec_bind_ok (exec_vnBeginIterateDir _)] at hwalk
  have hexec : (Task.listDir vnRootIno bufLen fuel).prog.exec
      (oneFileSys plainCodec 0 0).world
      = .ok (.entries es, (oneFileSys plainCodec 0 0).world) :=
    (exec_bind_ok (exec_vnBeginIterateDir _)).trans (exec_bind_ok hwalk)
  obtain ⟨tr, n, n', hrun, hstep, -⟩ := run_secondTask (F := attributes)
    ⟨fun n hn => (by cases hn), fun f hf => (by cases hf)⟩ hexec trivial
    (show vnFirstUserIno + 1 < plainNos by decide)
  obtain ⟨n₁, -, -, -, -, -, -, hduring, -, hnames, -⟩ :=
    listing_is_a_snapshot hrun hstep
  obtain ⟨v, hv⟩ := (hnames nameA).mp hname
  exact ⟨tr, n, n', bufLen, fuel, es, hrun, hstep, hname, n₁, v, hduring, hv⟩

-- ================================================================= reads

section Read

variable {ino offset len : Nat} {Saw : Nat → (Nat → UInt8) → Prop}
  {log : List (Σ c : StoreCall, c.Resp)}

theorem Sound.whole {c : Nat} {db : Store} (h : Sound codec c db)
    (ino : Nat) : ExtentsWhole db ino := by
  intro idx
  obtain ⟨data, hdata⟩ := h.holds (vnExtentKey idx ino)
  obtain ⟨r, hr, hlen, -⟩ := hdata.getData
  exact ⟨r, hr, hlen⟩

end Read

end ViveNas
