import Ionosphere.Store.Parameters

/-! The queries of the store and of JMAP that bind lists. Most go through `queryInChunks`;
those that filter by accessible mailboxes, by references or by search tokens bind a list
the caller sizes. -/
namespace Ionosphere.Store

open Ionosphere.Js Ionosphere.Lib Search Value

/-- A list of keys looked up in a table, in parts of `size` keys after the `fixed` values. -/
structure Lookup (ρ : Type) where
  fixed : Params
  items : List Value
  size : Nat
  size_pos : 0 < size
  rows : List ρ
  key : ρ → Value

namespace Lookup

variable {ρ : Type}

/-- `queryInChunks`. -/
def inChunks (fixed : Params) (items : List Value) (rows : List ρ) (key : ρ → Value) : Lookup ρ where
  fixed := fixed
  items := items
  size := max 1 (maxParamsPerStatement - fixed.length)
  size_pos := Nat.lt_of_lt_of_le Nat.one_pos (le_max_left _ _)
  rows := rows
  key := key

variable (l : Lookup ρ)

def parts : List (List Value) := Table.chunk l.size l.items

def queries : List Params := l.parts.map fun part => l.fixed ++ part

def found : List ρ := Table.selectParts l.size l.items l.key l.rows

/-- The parts together find what one look-up would, each row as often. -/
def Complete : Prop := l.found.Perm (l.rows.filter fun r => l.items.contains (l.key r))

def Apart : Prop := ∀ r ∈ l.rows, Table.Together l.size l.items (l.key r)

theorem complete_iff : l.Complete ↔ l.Apart := Table.perm_selectParts l.size_pos l.items l.key l.rows

theorem queries_within :
    (∀ q ∈ l.queries, q.length ≤ maxParamsPerStatement) ↔
      (l.items ≠ [] → l.fixed.length + min l.size l.items.length ≤ maxParamsPerStatement) := by
  rw [queries, parts, ← Table.forall_chunk l.size_pos]
  simp only [List.forall_mem_map, List.length_append]

theorem inChunks_within (fixed : Params) (items : List Value) (rows : List ρ) (key : ρ → Value) :
    (∀ q ∈ (inChunks fixed items rows key).queries, q.length ≤ maxParamsPerStatement) ↔
      (items ≠ [] → fixed.length < maxParamsPerStatement) := by
  rw [queries_within]
  refine imp_congr_right fun hne => ?_
  have hpos : 0 < items.length := List.length_pos_iff.mpr hne
  simp only [inChunks]
  omega

end Lookup

def resolveThreadQueries (accountId : Id) (hashes : List Text) : List Params :=
  if hashes.eraseDups = [] then [] else [text accountId :: hashes.eraseDups.map text]

section

variable (u : CaseMap) (uni : Unicode)

def searchQueries (accountId : Id) (query : Text) (limit : Nat) : Except StoreError (List Params) := do
  let tokens ← tokenizeQuery uni query
  if tokens = [] then pure []
  else
    let maxTokens := maxParamsPerStatement - 3
    if maxTokens < tokens.length then
      throw (.store ("search query has too many tokens (max ".toList ++ natText maxTokens ++ ")".toList))
    else pure [[text accountId] ++ tokens.map token ++ [nat tokens.length, nat limit]]

def hasAccess (allowed : Option (List Id)) (db : Db) (m : MessageRow) : Bool :=
  match allowed with
  | none => true
  | some mailboxIds =>
    db.memberships.any fun r => r.messageId = m.id && mailboxIds.contains r.mailboxId

/-- The messages `getEmailsForJmap` reads; the parts leave room for the account alone. -/
def emailLookup (accountId : Id) (ids : List Id) (allowed : Option (List Id)) (db : Db) :
    Lookup MessageRow where
  fixed := text accountId :: (allowed.getD []).map text
  items := if allowed = some [] then [] else ids.map text
  size := listSize 1
  size_pos := by decide
  rows := db.messages.filter (hasAccess allowed db)
  key m := text m.id

def getEmailsForJmap (accountId : Id) (ids : List Id) (allowed : Option (List Id)) (db : Db) :
    List Params :=
  let l := emailLookup accountId ids allowed db
  l.parts.flatMap fun part =>
    let foundIds := (l.rows.filter fun m => part.contains (text m.id)).map fun m => text m.id
    (l.fixed ++ part) :: if foundIds = [] then [] else [foundIds, foundIds, foundIds]

structure JmapEmailFilter where
  inMailbox : Option Id := none
  before : Option Int := none
  after : Option Int := none
  minSize : Option Int := none
  maxSize : Option Int := none
  hasKeyword : Option Text := none
  notKeyword : Option Text := none
  text : Option Text := none
  subject : Option Text := none
  body : Option Text := none
  from_ : Option Text := none
  to_ : Option Text := none

def truthy (t : Option Text) : Option Text := t.filter fun t => !t.isEmpty

/-- The full text filters with their `SEARCH_FIELD`; the first searches every field. -/
def ftsFilters (f : JmapEmailFilter) : List (Option Nat × Text) :=
  (f.text.map fun t => (none, t)).toList ++ (f.subject.map fun t => (some 0, t)).toList ++
    (f.body.map fun t => (some 1, t)).toList ++ (f.from_.map fun t => (some 2, t)).toList ++
    (f.to_.map fun t => (some 3, t)).toList

def maxFilterTokens : Nat := maxParamsPerStatement - 8

def ftsParams (accountId : Id) : List (Option Nat × Text) → Except StoreError Params
  | [] => .ok []
  | (field, value) :: filters => do
    let tokens ← tokenizeQuery uni value
    if tokens = [] then ftsParams accountId filters
    else if maxFilterTokens < tokens.length then
      throw (.store ("search filter has too many tokens (max ".toList ++ natText maxFilterTokens ++
        ")".toList))
    else
      let rest ← ftsParams accountId filters
      pure ([text accountId] ++ (field.map nat).toList ++ tokens.map token ++ [nat tokens.length] ++ rest)

def scalarParams (f : JmapEmailFilter) : Params :=
  ((truthy f.inMailbox).map text).toList ++ (f.after.map Value.number).toList ++
    (f.before.map Value.number).toList ++ (f.minSize.map Value.number).toList ++ (f.maxSize.map Value.number).toList ++
    ((truthy f.hasKeyword).map fun k => text (toLowerCase u k)).toList ++
    ((truthy f.notKeyword).map fun k => text (toLowerCase u k)).toList

def queryEmails (accountId : Id) (f : JmapEmailFilter) (position limit : Nat)
    (allowed : Option (List Id)) : Except StoreError (List Params) :=
  if allowed = some [] then pure []
  else do
    let fts ← ftsParams uni accountId (ftsFilters f)
    let params := [text accountId] ++ (allowed.getD []).map text ++ scalarParams u f ++ fts
    pure [params, params ++ [nat limit, nat position]]

def threadLookup (accountId : Id) (ids : List Id) (allowed : Option (List Id)) (db : Db) :
    Lookup MessageRow :=
  .inChunks (text accountId :: (allowed.getD []).map text) (ids.map text)
    (db.messages.filter (hasAccess allowed db)) fun m => text m.threadId

def getThreadsForJmap (accountId : Id) (ids : Option (List Id)) (allowed : Option (List Id))
    (db : Db) : List Params :=
  if allowed = some [] then []
  else
    match ids with
    | none => [text accountId :: (allowed.getD []).map text]
    | some ids => (threadLookup accountId ids allowed db).queries

def getSubmissions {ρ : Type} (accountId : Id) (ids : Option (List Id)) (rows : List ρ)
    (key : ρ → Value) : List Params :=
  match ids with
  | none => [[text accountId]]
  | some ids => (Lookup.inChunks [text accountId] (ids.map text) rows key).queries

/-- The rows of `message_text` for search snippets. -/
def snippetLookup {ρ : Type} (accountId : Id) (ids : List Id) (rows : List ρ) (key : ρ → Value) :
    Lookup ρ where
  fixed := [text accountId]
  items := ids.map text
  size := listSize 1
  size_pos := by decide
  rows := rows
  key := key

/-- The check of a download; another account's blob needs an accessible message. -/
def serveDownload (blobId accountId requestedAccountId : Id) (allowed : List Id) : List Params :=
  [[nat messageRef, text blobId, text requestedAccountId] ++
    if requestedAccountId = accountId then [] else allowed.map text]

end

/-- A row of `message_text`. -/
structure TextRow where
  messageId : Id
  field : Nat
  content : Text

/-- The inserts of `indexSearchText` and `copySearchArtifacts`; an `insertIgnore` takes one
row. -/
def textStatements (rows : List TextRow) : List Params :=
  (Table.chunk (rowsPerStatement 3) rows).map fun part =>
    part.flatMap fun r => [text r.messageId, nat r.field, text r.content]

def artifactStatements (rows : List TextRow) (postings : List (Posting Id)) : List Params :=
  textStatements rows ++
    postings.map fun p => [text p.accountId, token p.token, nat p.field, text p.messageId]

/-- Tables outside the mailboxes, each row with the key it is looked up by. -/
structure Tables where
  db : Db := {}
  submissions : List (Id × Id) := []
  texts : List TextRow := []

inductive Request where
  /-- A list of the store's own, after the values bound besides it. -/
  | inChunks (fixed : Params) (items : List Value) (rows : List (Value × Id))
  | resolveThread (accountId : Id) (hashes : List Text)
  | search (accountId : Id) (query : Text) (limit : Nat)
  | artifacts (rows : List TextRow) (postings : List (Posting Id))
  | emails (accountId : Id) (ids : List Id) (allowed : Option (List Id))
  | emailQuery (accountId : Id) (filter : JmapEmailFilter) (position limit : Nat)
      (allowed : Option (List Id))
  | threads (accountId : Id) (ids : Option (List Id)) (allowed : Option (List Id))
  | submissions (accountId : Id) (ids : Option (List Id))
  | snippets (accountId : Id) (ids : List Id)
  | download (blobId accountId requestedAccountId : Id) (allowed : List Id)

def sent (queries : Except StoreError (List Params)) : List Params :=
  match queries with
  | .ok queries => queries
  | .error _ => []

namespace Request

section

variable (u : CaseMap) (uni : Unicode)

def queries (t : Tables) : Request → List Params
  | inChunks fixed items rows => (Lookup.inChunks fixed items rows (·.1)).queries
  | resolveThread accountId hashes => resolveThreadQueries accountId hashes
  | search accountId query limit => sent (searchQueries uni accountId query limit)
  | artifacts rows postings => artifactStatements rows postings
  | emails accountId ids allowed => getEmailsForJmap accountId ids allowed t.db
  | emailQuery accountId filter position limit allowed =>
    sent (queryEmails u uni accountId filter position limit allowed)
  | threads accountId ids allowed => getThreadsForJmap accountId ids allowed t.db
  | submissions accountId ids => getSubmissions accountId ids t.submissions fun r => text r.1
  | snippets accountId ids => (snippetLookup accountId ids t.texts fun r => text r.messageId).queries
  | download blobId accountId requestedAccountId allowed =>
    serveDownload blobId accountId requestedAccountId allowed

def Within (t : Tables) (r : Request) : Prop :=
  ∀ q ∈ r.queries u uni t, q.length ≤ maxParamsPerStatement

end

/-- What is done in parts loses no row and doubles none. -/
def Complete (t : Tables) : Request → Prop
  | inChunks fixed items rows => (Lookup.inChunks fixed items rows (·.1)).Complete
  | artifacts rows _ =>
    (textStatements rows).flatten = rows.flatMap fun r => [text r.messageId, nat r.field, text r.content]
  | emails accountId ids allowed => (emailLookup accountId ids allowed t.db).Complete
  | threads accountId (some ids) allowed => (threadLookup accountId ids allowed t.db).Complete
  | submissions accountId (some ids) =>
    (Lookup.inChunks [text accountId] (ids.map text) t.submissions fun r => text r.1).Complete
  | snippets accountId ids => (snippetLookup accountId ids t.texts fun r => text r.messageId).Complete
  | _ => True

end Request

section

variable (u : CaseMap) (uni : Unicode)

/-- What a full text filter binds: the account, its field, its tokens and their number. -/
def filterWeight (x : Option Nat × Text) : Nat :=
  match tokenizeQuery uni x.2 with
  | .ok tokens => if tokens = [] then 0 else tokens.length + x.1.toList.length + 2
  | .error _ => 0

/-- Some filter is too long, or has too many tokens. -/
def Refused (f : JmapEmailFilter) : Prop :=
  ∃ x ∈ ftsFilters f, ∀ tokens, tokenizeQuery uni x.2 = .ok tokens → maxFilterTokens < tokens.length

def emailQueryWeight (f : JmapEmailFilter) (allowed : Option (List Id)) : Nat :=
  1 + (allowed.getD []).length +
    ((truthy f.inMailbox).toList.length + f.after.toList.length + f.before.toList.length +
      f.minSize.toList.length + f.maxSize.toList.length + (truthy f.hasKeyword).toList.length +
      (truthy f.notKeyword).toList.length) +
    ((ftsFilters f).map (filterWeight uni)).sum

namespace Request

/-- When a request stays within the limit: the lists that are not cut fit into one
statement, and no key of a row is asked for in two parts. -/
def Fits (t : Tables) : Request → Prop
  | inChunks fixed items rows =>
    (items ≠ [] → fixed.length < maxParamsPerStatement) ∧
      (Lookup.inChunks fixed items rows (·.1)).Apart
  | resolveThread _ hashes => hashes.eraseDups.length < maxParamsPerStatement
  | emails accountId ids allowed =>
    (ids ≠ [] → allowed ≠ some [] →
      1 + (allowed.getD []).length + min 99 ids.length ≤ maxParamsPerStatement) ∧
      (emailLookup accountId ids allowed t.db).Apart
  | emailQuery _ filter _ _ allowed =>
    allowed = some [] ∨ Refused uni filter ∨
      emailQueryWeight uni filter allowed + 2 ≤ maxParamsPerStatement
  | threads _ none allowed => 1 + (allowed.getD []).length ≤ maxParamsPerStatement
  | threads accountId (some ids) allowed =>
    (ids ≠ [] → 1 + (allowed.getD []).length < maxParamsPerStatement) ∧
      (threadLookup accountId ids allowed t.db).Apart
  | submissions accountId (some ids) =>
    (Lookup.inChunks [text accountId] (ids.map text) t.submissions fun r => text r.1).Apart
  | snippets accountId ids => (snippetLookup accountId ids t.texts fun r => text r.messageId).Apart
  | download _ accountId requestedAccountId allowed =>
    requestedAccountId = accountId ∨ 3 + allowed.length ≤ maxParamsPerStatement
  | _ => True

end Request

end

section

variable {u : CaseMap} {uni : Unicode}

theorem filterWeight_ok {x : Option Nat × Text} {tokens : List Token}
    (h : tokenizeQuery uni x.2 = .ok tokens) :
    filterWeight uni x = if tokens = [] then 0 else tokens.length + x.1.toList.length + 2 := by
  rw [filterWeight, h]

theorem ftsParams_cases (accountId : Id) (filters : List (Option Nat × Text)) :
    ((∃ x ∈ filters, ∀ tokens, tokenizeQuery uni x.2 = .ok tokens → maxFilterTokens < tokens.length) ∧
      ∃ err, ftsParams uni accountId filters = .error err) ∨
    ((∀ x ∈ filters, ∃ tokens, tokenizeQuery uni x.2 = .ok tokens ∧
        tokens.length ≤ maxFilterTokens) ∧
      ∃ params, ftsParams uni accountId filters = .ok params ∧
        params.length = (filters.map (filterWeight uni)).sum) := by
  induction filters with
  | nil => exact .inr ⟨by simp, [], rfl, rfl⟩
  | cons x filters ih =>
    obtain ⟨field, value⟩ := x
    cases htokens : tokenizeQuery uni value with
    | error err =>
      refine .inl ⟨⟨(field, value), List.mem_cons_self, ?_⟩, err, ?_⟩
      · intro tokens h
        rw [htokens] at h
        cases h
      · rw [ftsParams, htokens]
        rfl
    | ok tokens =>
      have hweight := filterWeight_ok (x := (field, value)) htokens
      have hbind : ftsParams uni accountId ((field, value) :: filters) =
          if tokens = [] then ftsParams uni accountId filters
          else if maxFilterTokens < tokens.length then
            .error (.store ("search filter has too many tokens (max ".toList ++
              natText maxFilterTokens ++ ")".toList))
          else (ftsParams uni accountId filters).map fun rest =>
            [text accountId] ++ (field.map nat).toList ++ tokens.map token ++ [nat tokens.length] ++
              rest := by
        rw [ftsParams, htokens]
        cases ftsParams uni accountId filters <;> rfl
      by_cases hlong : maxFilterTokens < tokens.length
      · refine .inl ⟨⟨(field, value), List.mem_cons_self, ?_⟩, ?_⟩
        · intro tokens' h
          rw [htokens] at h
          cases h
          exact hlong
        · have hne : tokens ≠ [] := by
            rintro rfl
            simp at hlong
          rw [hbind, if_neg hne, if_pos hlong]
          exact ⟨_, rfl⟩
      · rcases ih with ⟨⟨x, hx, hrefused⟩, err, herr⟩ | ⟨hall, params, hparams, hlength⟩
        · refine .inl ⟨⟨x, List.mem_cons_of_mem _ hx, hrefused⟩, err, ?_⟩
          rw [hbind, herr, if_neg hlong]
          split_ifs <;> rfl
        · refine .inr ⟨?_, ?_⟩
          · rintro y (_ | ⟨_, hy⟩)
            · exact ⟨tokens, htokens, Nat.le_of_not_lt hlong⟩
            · exact hall y hy
          · rw [hbind, hparams, if_neg hlong, List.map_cons, List.sum_cons, hweight, ← hlength]
            by_cases hnone : tokens = []
            · rw [if_pos hnone, if_pos hnone, Nat.zero_add]
              exact ⟨params, rfl, rfl⟩
            · rw [if_neg hnone, if_neg hnone]
              refine ⟨_, rfl, ?_⟩
              cases field <;> simp <;> omega

theorem scalarParams_length (f : JmapEmailFilter) :
    (scalarParams u f).length =
      (truthy f.inMailbox).toList.length + f.after.toList.length + f.before.toList.length +
        f.minSize.toList.length + f.maxSize.toList.length + (truthy f.hasKeyword).toList.length +
        (truthy f.notKeyword).toList.length := by
  have hoption : ∀ {α : Type} (o : Option α) (g : α → Value),
      (o.map g).toList.length = o.toList.length := by
    intro α o g
    cases o <;> rfl
  simp only [scalarParams, List.length_append, hoption]

theorem emailQuery_within (accountId : Id) (f : JmapEmailFilter) (position limit : Nat)
    (allowed : Option (List Id)) :
    (∀ q ∈ sent (queryEmails u uni accountId f position limit allowed),
        q.length ≤ maxParamsPerStatement) ↔
      allowed = some [] ∨ Refused uni f ∨ emailQueryWeight uni f allowed + 2 ≤ maxParamsPerStatement := by
  by_cases hallowed : allowed = some []
  · have hsent : sent (queryEmails u uni accountId f position limit allowed) = [] := by
      rw [queryEmails, if_pos hallowed]
      rfl
    rw [hsent]
    simp [hallowed]
  · rcases @ftsParams_cases uni accountId (ftsFilters f) with
      ⟨hrefused, err, herr⟩ | ⟨hall, params, hparams, hlength⟩
    · have hsent : sent (queryEmails u uni accountId f position limit allowed) = [] := by
        rw [queryEmails, if_neg hallowed, herr]
        rfl
      rw [hsent]
      simp only [List.not_mem_nil, false_imp_iff, implies_true, true_iff]
      exact .inr (.inl hrefused)
    · have hnot : ¬ Refused uni f := by
        rintro ⟨x, hx, hrefused⟩
        obtain ⟨tokens, htokens, hle⟩ := hall x hx
        exact absurd (hrefused tokens htokens) (Nat.not_lt.mpr hle)
      have hsent : sent (queryEmails u uni accountId f position limit allowed) =
          [[text accountId] ++ (allowed.getD []).map text ++ scalarParams u f ++ params,
            [text accountId] ++ (allowed.getD []).map text ++ scalarParams u f ++ params ++
              [nat limit, nat position]] := by
        rw [queryEmails, if_neg hallowed, hparams]
        rfl
      rw [hsent]
      simp only [hallowed, hnot, false_or, List.forall_mem_cons, List.length_append, List.length_cons,
        List.length_nil, List.length_map, scalarParams_length, hlength, emailQueryWeight]
      constructor
      · rintro ⟨-, h, -⟩
        omega
      · intro h
        refine ⟨by omega, by omega, by simp⟩

theorem search_within (accountId : Id) (query : Text) (limit : Nat) :
    ∀ q ∈ sent (searchQueries uni accountId query limit), q.length ≤ maxParamsPerStatement := by
  have hsent : sent (searchQueries uni accountId query limit) = [] ∨
      ∃ tokens : List Token, tokens.length ≤ maxParamsPerStatement - 3 ∧
        sent (searchQueries uni accountId query limit) =
          [[text accountId] ++ tokens.map token ++ [nat tokens.length, nat limit]] := by
    rw [searchQueries]
    cases tokenizeQuery uni query with
    | error err => exact .inl rfl
    | ok tokens =>
      by_cases hnone : tokens = []
      · refine .inl ?_
        simp only [bind, Except.bind, if_pos hnone]
        rfl
      · by_cases hlong : maxParamsPerStatement - 3 < tokens.length
        · refine .inl ?_
          simp only [bind, Except.bind, if_neg hnone, if_pos hlong]
          rfl
        · refine .inr ⟨tokens, Nat.le_of_not_lt hlong, ?_⟩
          simp only [bind, Except.bind, if_neg hnone, if_neg hlong]
          rfl
  rcases hsent with h | ⟨tokens, hle, h⟩
  · simp [h]
  · rw [h, maxParamsPerStatement] at *
    simp only [List.forall_mem_cons, List.length_append, List.length_cons, List.length_nil,
      List.length_map]
    exact ⟨by omega, by simp⟩

theorem foundIds_length {db : Db} (hkeyed : Keyed db) (p : MessageRow → Bool) (part : List Value) :
    (((db.messages.filter p).filter fun m => part.contains (text m.id)).map fun m =>
      text m.id).length ≤ part.length := by
  have hids : (db.messages.map fun m => text m.id).Nodup := by
    have hinj : Function.Injective text := fun a b h => Value.text.inj h
    have := hkeyed.message.map hinj
    rwa [List.map_map] at this
  have hsub : (((db.messages.filter p).filter fun m => part.contains (text m.id)).map fun m =>
      text m.id).Nodup :=
    hids.sublist ((List.filter_sublist.trans List.filter_sublist).map _)
  apply (List.subperm_of_subset hsub ?_).length_le
  intro v hv
  obtain ⟨m, hm, rfl⟩ := List.mem_map.mp hv
  simpa using (List.mem_filter.mp hm).2

theorem emails_within {db : Db} (hkeyed : Keyed db) (accountId : Id) (ids : List Id)
    (allowed : Option (List Id)) :
    (∀ q ∈ getEmailsForJmap accountId ids allowed db, q.length ≤ maxParamsPerStatement) ↔
      (ids ≠ [] → allowed ≠ some [] →
        1 + (allowed.getD []).length + min 99 ids.length ≤ maxParamsPerStatement) := by
  have hqueries : (∀ q ∈ getEmailsForJmap accountId ids allowed db, q.length ≤ maxParamsPerStatement) ↔
      ∀ q ∈ (emailLookup accountId ids allowed db).queries, q.length ≤ maxParamsPerStatement := by
    rw [getEmailsForJmap, Lookup.queries]
    simp only [List.forall_mem_flatMap, List.forall_mem_map, List.forall_mem_cons]
    refine forall₂_congr fun part hpart => and_iff_left ?_
    have hsize : listSize 1 ≤ maxParamsPerStatement := by decide
    have hpart : part.length ≤ maxParamsPerStatement :=
      (Table.length_le_of_mem_chunk (emailLookup accountId ids allowed db).size_pos hpart).1.trans hsize
    have hfound := foundIds_length hkeyed (hasAccess allowed db) part
    intro q hq
    split_ifs at hq
    · simp at hq
    · simp only [List.mem_cons, List.not_mem_nil, or_false, or_self] at hq
      rw [hq]
      exact hfound.trans hpart
  rw [hqueries, Lookup.queries_within]
  by_cases hallowed : allowed = some []
  · simp [emailLookup, hallowed]
  · simp only [emailLookup, hallowed, if_false, List.length_cons, List.length_map, ne_eq,
      List.map_eq_nil_iff, not_false_iff, true_imp_iff]
    have hsize : listSize 1 = 99 := rfl
    rw [hsize, Nat.add_comm 1]

theorem threads_within (accountId : Id) (ids : List Id) (allowed : Option (List Id)) (db : Db) :
    (∀ q ∈ (threadLookup accountId ids allowed db).queries, q.length ≤ maxParamsPerStatement) ↔
      (ids ≠ [] → 1 + (allowed.getD []).length < maxParamsPerStatement) := by
  rw [threadLookup, Lookup.inChunks_within]
  simp only [ne_eq, List.map_eq_nil_iff, List.length_cons, List.length_map, Nat.add_comm]

theorem one_within {ρ : Type} (accountId : Id) (items : List Value) (rows : List ρ) (key : ρ → Value) :
    ∀ q ∈ (Lookup.inChunks [text accountId] items rows key).queries,
      q.length ≤ maxParamsPerStatement := by
  rw [Lookup.inChunks_within]
  intro _
  rw [List.length_singleton, maxParamsPerStatement]
  omega

theorem textStatements_within (rows : List TextRow) :
    ∀ q ∈ textStatements rows, q.length ≤ maxParamsPerStatement := by
  intro q hq
  obtain ⟨part, hpart, rfl⟩ := List.mem_map.mp hq
  have hsize : rowsPerStatement 3 = 33 := by decide
  have hlength := (Table.length_le_of_mem_chunk (by omega) hpart).1
  rw [length_rows 3 _ fun _ => rfl, maxParamsPerStatement]
  omega

theorem request_iff {t : Tables} (hkeyed : Keyed t.db) (r : Request) :
    (r.Within u uni t ∧ r.Complete t) ↔ r.Fits uni t := by
  cases r with
  | inChunks fixed items rows =>
    exact and_congr (Lookup.inChunks_within fixed items rows _) (Lookup.complete_iff _)
  | resolveThread accountId hashes =>
    simp only [Request.Within, Request.queries, Request.Complete, Request.Fits, resolveThreadQueries,
      and_true]
    split_ifs with hnone
    · simp [hnone, maxParamsPerStatement]
    · simp only [List.forall_mem_singleton, List.length_cons, List.length_map]
      omega
  | search accountId query limit =>
    exact iff_true_intro ⟨search_within accountId query limit, trivial⟩
  | artifacts rows postings =>
    refine iff_true_intro ⟨?_, ?_⟩
    · intro q hq
      rcases List.mem_append.mp hq with hq | hq
      · exact textStatements_within rows q hq
      · obtain ⟨p, -, rfl⟩ := List.mem_map.mp hq
        simp [maxParamsPerStatement]
    · rw [Request.Complete, textStatements, ← List.flatMap_def]
      conv_rhs => rw [← Table.flatten_chunk (rowsPerStatement 3) rows, ← List.flatMap_id, List.flatMap_assoc]
      rfl
  | emails accountId ids allowed =>
    exact and_congr (emails_within hkeyed accountId ids allowed) (Lookup.complete_iff _)
  | emailQuery accountId filter position limit allowed =>
    exact (and_iff_left trivial).trans (emailQuery_within accountId filter position limit allowed)
  | threads accountId ids allowed =>
    cases ids with
    | none =>
      simp only [Request.Within, Request.queries, Request.Complete, Request.Fits, getThreadsForJmap,
        and_true]
      split_ifs with hallowed
      · simp [hallowed, maxParamsPerStatement]
      · simp only [List.forall_mem_singleton, List.length_cons, List.length_map, Nat.add_comm]
    | some ids =>
      refine and_congr ?_ (Lookup.complete_iff _)
      simp only [Request.Within, Request.queries, getThreadsForJmap]
      split_ifs with hallowed
      · simp [hallowed, maxParamsPerStatement]
      · exact threads_within accountId ids allowed t.db
  | submissions accountId ids =>
    cases ids with
    | none =>
      refine iff_true_intro ⟨?_, trivial⟩
      simp [Request.Within, Request.queries, getSubmissions, maxParamsPerStatement]
    | some ids =>
      exact (and_iff_right (one_within accountId _ _ _)).trans (Lookup.complete_iff _)
  | snippets accountId ids =>
    refine (and_iff_right ?_).trans (Lookup.complete_iff _)
    have := (Lookup.queries_within (snippetLookup accountId ids t.texts fun r => text r.messageId)).mpr
    apply this
    intro _
    have hsize : listSize 1 = 99 := rfl
    simp only [snippetLookup, List.length_singleton, hsize, maxParamsPerStatement]
    omega
  | download blobId accountId requestedAccountId allowed =>
    simp only [Request.Within, Request.queries, Request.Complete, Request.Fits, serveDownload, and_true,
      List.forall_mem_singleton, List.length_append, List.length_cons, List.length_nil]
    by_cases hown : requestedAccountId = accountId
    · simp [hown, maxParamsPerStatement]
    · simp [hown]

end

def sampleAccount : Db := newAccount "acc".toList "inbox".toList 0 0

def manyKeys : List Value := (List.range 150).map nat

/-- Two rows, asked for in different parts. -/
def manyRows : Request := .inChunks [nat 1] manyKeys [(nat 7, ['x']), (nat 120, ['y'])]

theorem nodup_manyKeys : manyKeys.Nodup := by
  refine List.nodup_range.map fun m n h => ?_
  cases h
  rfl

def manyMailboxes : List Id := (List.range 100).map natText

end Ionosphere.Store
