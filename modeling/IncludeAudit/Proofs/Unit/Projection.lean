import IncludeAudit.Proofs.Unit.Bookkeeping

/-!
# IncludeAudit.Proofs.Unit.Projection

The declarations and usages of a log, and what the two credit together.

* `NameTable.Listed`: no name stands in a table twice, and none without a file.
* `Evidence.count_hits_hit`: how often a file is credited for a name in a bucket.
* `Finding.Touches`, `Ledger.keeps_of_not_touches`: the buckets that a finding leaves alone.
* `Ledger.Projects`: what each table of a ledger has to do with the log; `projects_ledger`: so it is
  for every log.
* `Ledger.count_hits_inserted`: a declaration brings one more credit for a usage exactly if its kind
  selects the bucket of the usage.
* `Ledger.projects_and_credits`: all of this together.
-/

namespace IncludeAudit

/-! ## Names and their files -/

namespace NameTable

def names (t : NameTable) : List String := t.entries.map Prod.fst

structure Listed (t : NameTable) : Prop where
  once : t.names.Nodup
  filled : ∀ e ∈ t.entries, e.2 ≠ []

section Entries

variable {name : String} {entries : List (String × List FileId)}

theorem map_fst_addTo (name : String) (file : FileId) (entries : List (String × List FileId)) :
    (addTo name file entries).map Prod.fst =
      if name ∈ entries.map Prod.fst then entries.map Prod.fst
      else entries.map Prod.fst ++ [name] := by
  induction entries with
  | nil => rfl
  | cons e rest ih =>
    obtain ⟨key, files⟩ := e
    rw [addTo]
    by_cases hkey : key = name
    · simp [hkey]
    · simp only [hkey, ↓reduceIte, List.map_cons, ih, List.mem_cons, Ne.symm hkey, false_or]
      split
      · rfl
      · rfl

theorem filled_addTo (h : ∀ e ∈ entries, e.2 ≠ []) (name : String) (file : FileId) :
    ∀ e ∈ addTo name file entries, e.2 ≠ [] := by
  induction entries with
  | nil => exact List.forall_mem_singleton.mpr (List.cons_ne_nil file [])
  | cons e rest ih =>
    obtain ⟨key, files⟩ := e
    obtain ⟨hfiles, hrest⟩ := List.forall_mem_cons.mp h
    rw [addTo]
    split
    · exact List.forall_mem_cons.mpr ⟨List.concat_ne_nil file files, hrest⟩
    · exact List.forall_mem_cons.mpr ⟨hfiles, ih hrest⟩

theorem filesIn_ne_nil_iff (h : ∀ e ∈ entries, e.2 ≠ []) :
    filesIn name entries ≠ [] ↔ name ∈ entries.map Prod.fst := by
  induction entries with
  | nil => simp [filesIn]
  | cons e rest ih =>
    obtain ⟨key, files⟩ := e
    obtain ⟨hfiles, hrest⟩ := List.forall_mem_cons.mp h
    rw [filesIn, List.map_cons, List.mem_cons]
    by_cases hkey : key = name
    · rw [if_pos hkey]
      exact iff_of_true hfiles (.inl hkey.symm)
    · rw [if_neg hkey, ih hrest, or_iff_right (Ne.symm hkey)]

end Entries

theorem Listed.add {t : NameTable} (h : t.Listed) (name : String) (file : FileId) :
    (t.add name file).Listed := by
  refine ⟨?_, filled_addTo h.filled name file⟩
  rw [names, NameTable.add, map_fst_addTo]
  split
  · exact h.once
  · next hnew => simpa using h.once.concat hnew

theorem contains_iff_mem_names {t : NameTable} {name : String} :
    t.contains name = true ↔ name ∈ t.names := by
  simp [contains, names]

theorem Listed.files_ne_nil_iff {t : NameTable} (h : t.Listed) (name : String) :
    t.files name ≠ [] ↔ name ∈ t.names := filesIn_ne_nil_iff h.filled

end NameTable

namespace Declarations

def Listed (d : Declarations) : Prop := ∀ b, (d.table b).Listed

theorem table_record (d : Declarations) (b b' : Bucket) (name : String) (file : FileId) :
    (d.record b name file).table b' =
      if b' = b then (d.table b').add name file else d.table b' := by
  cases b <;> cases b' <;> rfl

theorem listed_empty : ({} : Declarations).Listed := by
  intro b
  have htable : ({} : Declarations).table b = {} := by cases b <;> rfl
  rw [htable]
  exact ⟨List.nodup_nil, List.forall_mem_nil _⟩

theorem Listed.record {d : Declarations} (h : d.Listed) (b : Bucket) (name : String)
    (file : FileId) : (d.record b name file).Listed := by
  intro b'
  rw [table_record]
  split
  · exact (h b').add name file
  · exact h b'

theorem table_declare {b : Bucket} {kind : DeclarationKind} {externalStorage : Bool}
    (h : b ∉ kind.buckets externalStorage) (d : Declarations) (name : String) (file : FileId) :
    (d.declare kind name file externalStorage).table b = d.table b := by
  unfold declare
  revert h
  induction kind.buckets externalStorage generalizing d with
  | nil => exact fun _ => rfl
  | cons b' buckets ih =>
    intro h
    rw [List.mem_cons, not_or] at h
    rw [List.foldl_cons, ih _ h.2, table_record, if_neg h.1]

end Declarations

/-! ## Credits -/

namespace Evidence

variable (e : Evidence)

theorem count_map_hit (b b' : Bucket) (name other : String) (file : FileId) :
    ((e.declarations.lookup b' other).map fun f => (⟨b', other, f⟩ : Hit)).count ⟨b, name, file⟩ =
      if b' = b ∧ other = name then (e.declarations.lookup b name).count file else 0 := by
  by_cases h : b' = b ∧ other = name
  · obtain ⟨rfl, rfl⟩ := h
    rw [if_pos ⟨rfl, rfl⟩, List.count, List.countP_map, List.count]
    refine List.countP_congr fun f _ => ?_
    simp
  · rw [if_neg h, List.count_eq_zero]
    intro hmem
    obtain ⟨f, _, hf⟩ := List.mem_map.mp hmem
    exact h ⟨(Hit.mk.inj hf).1, (Hit.mk.inj hf).2.1⟩

theorem count_hitsIn_hit {b' : Bucket} (hnames : (e.usages.names b').Nodup) (b : Bucket)
    (name : String) (file : FileId) :
    (e.hitsIn b').count ⟨b, name, file⟩ =
      if b' = b ∧ name ∈ e.usages.names b' then (e.declarations.lookup b name).count file
      else 0 := by
  unfold hitsIn
  revert hnames
  induction e.usages.names b' with
  | nil => simp
  | cons other names ih =>
    intro hnames
    obtain ⟨hnew, hrest⟩ := List.nodup_cons.mp hnames
    rw [List.flatMap_cons, List.count_append, count_map_hit, ih hrest]
    by_cases hother : other = name
    · subst hother
      simp [hnew]
    · simp [hother, Ne.symm hother]

/-- A file is credited for a name that is used in a bucket as often as it is recorded there. -/
theorem count_hits_hit (hnames : ∀ b, (e.usages.names b).Nodup) (b : Bucket) (name : String)
    (file : FileId) :
    e.hits.count ⟨b, name, file⟩ =
      if name ∈ e.usages.names b then (e.declarations.lookup b name).count file else 0 := by
  simp only [hits, Bucket.all, List.flatMap_cons, List.flatMap_nil, List.count_append,
    List.count_nil, count_hitsIn_hit e (hnames _)]
  cases b <;> simp

end Evidence

/-! ## The log -/

/-- A finding that is entered in this bucket. -/
def Finding.Touches (b : Bucket) : Finding → Prop
  | declaration kind _ _ externalStorage => b ∈ kind.buckets externalStorage
  | usage kind _ => kind.bucket = b
  | directive .. | macroUse _ => False

namespace Ledger

/-- What the ledger shows about the includes of a main file. -/
def evidence (l : Ledger) (c : Conventions) (mainFile : FileId) : Evidence :=
  ⟨c, mainFile, l.declarations, l.usages⟩

theorem keeps_of_not_touches {b : Bucket} {d : Finding} (h : ¬d.Touches b) (l : Ledger) :
    (l.enter d).declarations.table b = l.declarations.table b ∧
      (l.enter d).usages.names b = l.usages.names b := by
  cases d with
  | declaration kind name file externalStorage =>
    exact ⟨Declarations.table_declare h l.declarations name file, rfl⟩
  | usage kind name =>
    have hbucket : kind.bucket ≠ b := h
    exact ⟨rfl, (Usages.names_note l.usages kind name b).trans (if_neg hbucket)⟩
  | directive file location resolved marks => exact ⟨rfl, rfl⟩
  | macroUse definitionFile => exact ⟨rfl, by cases b <;> rfl⟩

/-- Each table holds what the log says, and the numbers are those of its lists. -/
structure Projects (l : Ledger) (log : Log) : Prop where
  lookup : ∀ b name,
    l.declarations.lookup b name = log.filterMap (Finding.declaredFile? b name)
  names : ∀ b name,
    name ∈ l.usages.names b ↔ ∃ kind, Finding.usage kind name ∈ log ∧ kind.bucket = b
  named_once : ∀ b, (l.usages.names b).Nodup
  contains : ∀ b name,
    l.declarations.contains b name = true ↔ l.declarations.lookup b name ≠ []
  records : l.declarations.records = l.declarations.total
  size : ∀ b, ∃ names : List String, names.Nodup ∧
    (∀ name, name ∈ names ↔ l.declarations.lookup b name ≠ []) ∧
      (l.declarations.table b).size = names.length

theorem mem_usedNames_iff {log : Log} {b : Bucket} {name : String} :
    name ∈ log.filterMap (Finding.usedName? b) ↔
      ∃ kind, Finding.usage kind name ∈ log ∧ kind.bucket = b := by
  rw [List.mem_filterMap]
  constructor
  · rintro ⟨d, hd, hname⟩
    cases d with
    | usage kind other =>
      rw [Finding.usedName?, Option.ite_none_right_eq_some, Option.some_inj] at hname
      obtain ⟨hbucket, rfl⟩ := hname
      exact ⟨kind, hd, hbucket⟩
    | declaration kind other file externalStorage => cases hname
    | directive file location resolved marks => cases hname
    | macroUse definitionFile => cases hname
  · rintro ⟨kind, hd, hbucket⟩
    exact ⟨_, hd, if_pos hbucket⟩

theorem projects_ledger (log : Log) : log.ledger.Projects log := by
  have hlisted : log.ledger.declarations.Listed :=
    declarations_enterAll (P := Declarations.Listed) (fun _ b name file h => h.record b name file)
      {} Declarations.listed_empty log
  have hcounted : log.ledger.declarations.Counted :=
    declarations_enterAll (P := Declarations.Counted) (fun _ b name file h => h.record b name file)
      {} rfl log
  exact
    { lookup := lookup_ledger log
      names := fun b name => (mem_names_ledger log b name).trans mem_usedNames_iff
      named_once := nodup_names_ledger log
      contains := fun b name => NameTable.contains_iff_mem_names.trans
        ((hlisted b).files_ne_nil_iff name).symm
      records := hcounted
      size := fun b => ⟨_, (hlisted b).once, fun name => ((hlisted b).files_ne_nil_iff name).symm,
        (List.length_map _).symm⟩ }

/-! ## Usages and declarations -/

section Credits

variable (c : Conventions) (mainFile : FileId)

theorem count_hits_ledger (log : Log) (b : Bucket) (name : String) (file : FileId) :
    (log.ledger.evidence c mainFile).hits.count ⟨b, name, file⟩ =
      if name ∈ log.ledger.usages.names b then log.declarationCount b name file else 0 := by
  rw [Evidence.count_hits_hit _ (nodup_names_ledger log), evidence, lookup_ledger,
    Log.declarationCount]

theorem declarationCount_declared (before after : Log) (b : Bucket) (kind : DeclarationKind)
    (name : String) (file : FileId) (externalStorage : Bool) :
    Log.declarationCount (before ++ .declaration kind name file externalStorage :: after) b name
        file =
      Log.declarationCount (before ++ after) b name file +
        if b ∈ kind.buckets externalStorage then 1 else 0 := by
  rw [Log.declarationCount, Log.declarationCount, List.filterMap_append, List.filterMap_append,
    List.count_append, List.count_append, List.filterMap_cons, Nat.add_assoc]
  by_cases hbucket : b ∈ kind.buckets externalStorage
  · simp [Finding.declaredFile?, hbucket]
  · simp [Finding.declaredFile?, hbucket]

/-- Where the declaration stands in the log makes no difference. -/
theorem count_hits_inserted {before after : Log} {use : UsageKind} {name : String}
    (hused : Finding.usage use name ∈ before ++ after) (kind : DeclarationKind) (file : FileId)
    (externalStorage : Bool) :
    ((Log.ledger (before ++ .declaration kind name file externalStorage :: after)).evidence c
        mainFile).hits.count ⟨use.bucket, name, file⟩ =
      ((Log.ledger (before ++ after)).evidence c mainFile).hits.count ⟨use.bucket, name, file⟩ +
        if use.bucket ∈ kind.buckets externalStorage then 1 else 0 := by
  have hnames : ∀ {log : Log}, Finding.usage use name ∈ log →
      name ∈ log.ledger.usages.names use.bucket :=
    fun h => ((projects_ledger _).names _ _).mpr ⟨use, h, rfl⟩
  have hused' : Finding.usage use name ∈
      before ++ .declaration kind name file externalStorage :: after := by
    rw [List.mem_append] at hused ⊢
    exact hused.imp_right (List.mem_cons_of_mem _)
  rw [count_hits_ledger, count_hits_ledger, if_pos (hnames hused), if_pos (hnames hused'),
    declarationCount_declared]

end Credits

/-- The tables of a ledger are projections of its log, and so are the credits: a usage credits a
declaration of its name exactly if the kind of the declaration selects the bucket of the usage. What
is entered in one bucket leaves the others as they are. -/
theorem projects_and_credits (c : Conventions) (mainFile : FileId) :
    (∀ log : Log, log.ledger.Projects log) ∧
    (∀ (log : Log) (b : Bucket) (name : String) (file : FileId),
      (log.ledger.evidence c mainFile).hits.count ⟨b, name, file⟩ =
        if name ∈ log.ledger.usages.names b then log.declarationCount b name file else 0) ∧
    (∀ (before after : Log) (use : UsageKind) (name : String),
      Finding.usage use name ∈ before ++ after →
      ∀ (kind : DeclarationKind) (file : FileId) (externalStorage : Bool),
        ((Log.ledger (before ++ .declaration kind name file externalStorage :: after)).evidence c
            mainFile).hits.count ⟨use.bucket, name, file⟩ =
          ((Log.ledger (before ++ after)).evidence c mainFile).hits.count
              ⟨use.bucket, name, file⟩ +
            if use.bucket ∈ kind.buckets externalStorage then 1 else 0) ∧
    (∀ (l : Ledger) (d : Finding) (b : Bucket), ¬d.Touches b →
      (l.enter d).declarations.table b = l.declarations.table b ∧
        (l.enter d).usages.names b = l.usages.names b) ∧
    ∀ (d : Declarations) (b b' : Bucket) (name : String) (file : FileId), b' ≠ b →
      (d.record b name file).table b' = d.table b' := by
  refine ⟨projects_ledger, count_hits_ledger c mainFile, ?_, ?_, ?_⟩
  · intro before after use name hused kind file externalStorage
    exact count_hits_inserted c mainFile hused kind file externalStorage
  · intro l d b htouches
    exact keeps_of_not_touches htouches l
  · intro d b b' name file hne
    rw [Declarations.table_record, if_neg hne]

/-- A definition in the main file, with a function and a variable of its name. -/
theorem projects_and_credits_definition :
    let mainFile := FileId.ofPath "run.c"
    let header := FileId.ofPath "run.h"
    let other := FileId.ofPath "state.h"
    let before : Log := [.declaration .function "run" header false, .usage .definition "run"]
    let after : Log := [.usage .memberAccess "struct run", .macroUse other]
    let declared : Finding := .declaration .object "run" other true
    let log : Log := before ++ declared :: after
    Finding.usage .definition "run" ∈ before ++ after ∧ ¬declared.Touches .tag ∧
      Bucket.tag ≠ .external ∧
      log.ledger.Projects log ∧
      (log.ledger.evidence {} mainFile).hits.count ⟨.external, "run", other⟩ =
        ((Log.ledger (before ++ after)).evidence {} mainFile).hits.count
            ⟨.external, "run", other⟩ + 1 ∧
      (log.ledger.enter declared).declarations.table .tag = log.ledger.declarations.table .tag ∧
      (log.ledger.declarations.record .external "run" other).table .tag =
        log.ledger.declarations.table .tag := by
  intro mainFile header other before after declared log
  have hused : Finding.usage .definition "run" ∈ before ++ after := by simp [before, after]
  have htouches : ¬declared.Touches .tag := by
    simp [declared, Finding.Touches, DeclarationKind.buckets]
  have hne : Bucket.tag ≠ .external := by decide
  obtain ⟨hprojects, _, hcredits, hkeeps, hrecord⟩ := projects_and_credits {} mainFile
  exact ⟨hused, htouches, hne, hprojects log,
    hcredits before after .definition "run" hused .object other true,
    (hkeeps log.ledger declared .tag htouches).1,
    hrecord log.ledger.declarations .external .tag "run" other hne⟩

end Ledger
end IncludeAudit
