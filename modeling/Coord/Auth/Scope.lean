import Coord.Lib.PrefixInterval
import Coord.Raft.TypeConfig

/-!
# Scopes of grants

The scope check of the data plane: scope patterns in a trie of path segments, what they say about one key, and what
they say about a whole interval of keys.

* `RangeSemantics`, `prefixSuccessor`, `watchMatchInterval` — the ranges of requests;
* `TrieNode`, `ScopeTrie` — the trie of path segments, with its insertion and its match;
* `scopeCoversInterval`, `scopeAllows` — the checks of an interval and of the accesses of a request;
* `TrieNode.matchSegments_insert` — a trie matches what it matched before and everything below the inserted path;
* `ScopeTrie.matches_scopes` — a trie of many scopes matches what one of them covers;
* `scopeAllows_point` — what is admitted as an interval is admitted key by key.

Texts are their UTF-8 bytes.
-/

namespace Coord.Auth

open Coord.Lib List

/-! ### Ranges of keys -/

/-- What a request's `(key, range_end)` means. -/
inductive RangeSemantics where
  | singleKey
  | interval
  deriving DecidableEq

def RangeSemantics.of (key rangeEnd : Bytes) : RangeSemantics :=
  if rangeEnd = [] ∨ rangeEnd = key then .singleKey else .interval

/-- The range end that stands for "to the end of the keyspace". -/
def unboundedRangeEnd : Bytes := [0]

/-- The loop of `prefixSuccessor`, on the bytes from the last to the first. -/
def popRaise : Bytes → Option Bytes
  | [] => none
  | last :: out => if last ≠ 255 then some ((last + 1) :: out) else popRaise out

def prefixSuccessor (pre : Bytes) : Option Bytes := (popRaise pre.reverse).map List.reverse

/-- The half-open interval `[lo, hi)`; no `hi` is no upper bound. -/
def intervalContains (lo : Bytes) (hi : Option Bytes) (key : Bytes) : Bool :=
  if key < lo then false
  else match hi with
    | none => true
    | some hi => decide (key < hi)

/-- The interval a watch matches: the keys that start with `key`, below `rangeEnd` if there is one. -/
def watchMatchInterval (key rangeEnd : Bytes) : Bytes × Option Bytes :=
  let upper :=
    if rangeEnd = [] then prefixSuccessor key
    else match prefixSuccessor key with
      | some pu => some (min pu rangeEnd)
      | none => some rangeEnd
  (key, upper)

/-! ### UTF-8 -/

def isContinuation (b : Fin 256) : Bool := decide (0x80 ≤ b.val ∧ b.val ≤ 0xBF)

/-- The byte string is valid UTF-8: no overlong forms, no surrogates, nothing above U+10FFFF. -/
def isUtf8 : Bytes → Bool
  | [] => true
  | a :: rest =>
    if a.val < 0x80 then isUtf8 rest
    else match rest with
      | [] => false
      | b :: rest =>
        if 0xC2 ≤ a.val ∧ a.val ≤ 0xDF then isContinuation b && isUtf8 rest
        else match rest with
          | [] => false
          | c :: rest =>
            if 0xE0 ≤ a.val ∧ a.val ≤ 0xEF then
              isContinuation b && isContinuation c && decide (a.val = 0xE0 → 0xA0 ≤ b.val) &&
                decide (a.val = 0xED → b.val ≤ 0x9F) && isUtf8 rest
            else match rest with
              | [] => false
              | d :: rest =>
                decide (0xF0 ≤ a.val ∧ a.val ≤ 0xF4) && isContinuation b && isContinuation c && isContinuation d &&
                  decide (a.val = 0xF0 → 0x90 ≤ b.val) && decide (a.val = 0xF4 → b.val ≤ 0x8F) && isUtf8 rest

/-! ### The trie of path segments -/

def slash : Fin 256 := 47
def star : Fin 256 := 42

/-- The characters of a scope pattern: letters, digits, `/`, `_`, `-` and `*`. -/
def isScopeChar (b : Fin 256) : Bool :=
  decide (48 ≤ b.val ∧ b.val ≤ 57) || decide (65 ≤ b.val ∧ b.val ≤ 90) || decide (97 ≤ b.val ∧ b.val ≤ 122) ||
    b == slash || b == 95 || b == 45 || b == star

inductive ScopeError where
  /-- "invalid character '{c}' at position {i} in scope '{scope}'"; the character is the one at the position. -/
  | invalidCharacter (position : ℕ) (scope : Bytes)
  /-- "wildcard '*' must be the last segment" -/
  | wildcardNotLast
  deriving DecidableEq

-- every character before the first bad one is ASCII, so its position is also that of its first byte
def validateScopeChars (scope : Bytes) : Except ScopeError Unit :=
  match scope.findIdx? fun b => !isScopeChar b with
  | some i => .error (.invalidCharacter i scope)
  | none => .ok ()

def splitScope (path : Bytes) : List Bytes := (path.splitOn slash).filter fun s => !s.isEmpty

/-- A node of the trie: the children by segment, and whether a scope ends here or has its wildcard here. -/
inductive TrieNode where
  | node (children : List (Bytes × TrieNode)) (isEndpoint hasWildcard : Bool)

namespace TrieNode

def children : TrieNode → List (Bytes × TrieNode) | node c _ _ => c
def isEndpoint : TrieNode → Bool | node _ e _ => e
def hasWildcard : TrieNode → Bool | node _ _ w => w

def empty : TrieNode := node [] false false

def child (n : TrieNode) (segment : Bytes) : Option TrieNode := n.children.lookup segment

def setChild (n : TrieNode) (segment : Bytes) (c : TrieNode) : TrieNode :=
  node ((segment, c) :: n.children) n.isEndpoint n.hasWildcard

def markEndpoint (n : TrieNode) : TrieNode := node n.children true n.hasWildcard
def markWildcard (n : TrieNode) : TrieNode := node n.children n.isEndpoint true

/-- Walk the segments of a scope, making the nodes that are missing; a wildcard ends the walk. -/
def insertSegments : TrieNode → List Bytes → Except ScopeError Unit × TrieNode
  | n, [] => (.ok (), n)
  | n, segment :: rest =>
    if segment = [star] then
      if rest ≠ [] then (.error .wildcardNotLast, n) else (.ok (), n.markWildcard)
    else
      let next := (n.child segment).getD empty
      let done := (if rest = [] then next.markEndpoint else next).insertSegments rest
      (done.1, n.setChild segment done.2)

/-- Walk the segments of a key; an endpoint or a wildcard on the way covers everything below it. -/
def matchSegments : TrieNode → List Bytes → Bool
  | n, [] => n.isEndpoint || n.hasWildcard
  | n, segment :: rest =>
    if n.hasWildcard then true
    else if n.isEndpoint then true
    else match n.child segment with
      | some c => c.matchSegments rest
      | none => false

end TrieNode

structure ScopeTrie where
  root : TrieNode

namespace ScopeTrie

def new : ScopeTrie := ⟨.empty⟩

def insert (t : ScopeTrie) (scope : Bytes) : Except ScopeError Unit × ScopeTrie :=
  if scope = [] then (.ok (), ⟨t.root.markEndpoint⟩)
  else match validateScopeChars scope with
    | .error e => (.error e, t)
    | .ok () =>
      let segments := splitScope scope
      if segments = [] then (.ok (), ⟨t.root.markEndpoint⟩)
      else
        let done := t.root.insertSegments segments
        (done.1, ⟨done.2⟩)

def matchesResource (t : ScopeTrie) (resource : Bytes) : Bool :=
  if t.root.isEndpoint then true else t.root.matchSegments (splitScope resource)

end ScopeTrie

/-- The check of one key against one scope: a trie of that scope alone. -/
def scopeMatches (scope key : Bytes) : Bool :=
  let inserted := ScopeTrie.new.insert scope
  inserted.1.isOk && inserted.2.matchesResource key

/-! ### Intervals -/

def stripSuffix (ending text : Bytes) : Option Bytes :=
  if ending <:+ text then some (text.take (text.length - ending.length)) else none

def endWithSlash (p : Bytes) : Bytes := if p.getLast? = some slash then p else p ++ [slash]

/-- A literal prefix all of whose extensions match the scope. -/
def scopeSafeBytePrefix (scope : Bytes) : Option Bytes :=
  match validateScopeChars scope with
  | .error _ => none
  | .ok () =>
    match stripSuffix [slash, star] scope with
    | some base =>
      if star ∈ base then none
      else if base = [] then some []
      else some (endWithSlash base)
    | none => if star ∈ scope then none else some (endWithSlash scope)

/-- The bytes of U+FFFD, which stands for a key that is not UTF-8. -/
def replacementChar : Bytes := [0xEF, 0xBF, 0xBD]

def scopeCoversInterval (scope key rangeEnd : Bytes) : Bool :=
  -- match-all: "", only slashes, "/*" and "*"
  if scope = [] ∨ (∀ b ∈ scope, b = slash) ∨ scope = [slash, star] ∨ scope = [star] then true
  else if rangeEnd = [] then scopeMatches scope (if isUtf8 key then key else replacementChar)
  else if rangeEnd = unboundedRangeEnd then false
  else match scopeSafeBytePrefix scope with
    | none => false
    | some pre =>
      if pre = [] then true
      else match prefixSuccessor pre with
        | none => false
        | some upper => decide (pre ≤ key) && decide (rangeEnd ≤ upper)

/-- The keys a request touches: one key when `rangeEnd` is empty, else `[key, rangeEnd)`. -/
structure ScopeAccess where
  key : Bytes
  rangeEnd : Bytes
  deriving DecidableEq

namespace ScopeAccess

def point (key : Bytes) : ScopeAccess := ⟨key, []⟩
def range (key rangeEnd : Bytes) : ScopeAccess := ⟨key, rangeEnd⟩

def fromRange (key rangeEnd : Bytes) : ScopeAccess :=
  match RangeSemantics.of key rangeEnd with
  | .singleKey => point key
  | .interval => ⟨key, rangeEnd⟩

/-- The keys of an access, as the type's own documentation gives them. -/
def Contains (a : ScopeAccess) (k : Bytes) : Prop :=
  if a.rangeEnd = [] then k = a.key else a.key ≤ k ∧ (a.rangeEnd = unboundedRangeEnd ∨ k < a.rangeEnd)

instance (a : ScopeAccess) (k : Bytes) : Decidable (a.Contains k) := by
  unfold Contains; split <;> infer_instance

end ScopeAccess

def scopeAdmits (scope : Bytes) (a : ScopeAccess) : Bool :=
  if scope = [] then true
  else if a.rangeEnd = [] then isUtf8 a.key && scopeMatches scope a.key
  else scopeCoversInterval scope a.key a.rangeEnd

/-- Every access of the request is admitted by one of the granted scopes. -/
def scopeAllows (grantScopes : List Bytes) (accesses : List ScopeAccess) : Bool :=
  if accesses = [] then grantScopes.any fun s => s.isEmpty
  else accesses.all fun a => grantScopes.any fun scope => scopeAdmits scope a

/-! ### What a trie matches -/

namespace TrieNode

variable (n : TrieNode) (l : List Bytes)

@[simp] lemma child_setChild (s t : Bytes) (c : TrieNode) :
    (n.setChild s c).child t = if t = s then some c else n.child t := by
  unfold child setChild
  by_cases h : t = s
  · simp [children, h]
  · simp [children, lookup_cons, h, beq_false_of_ne h]

@[simp] lemma matchSegments_empty : empty.matchSegments l = false := by
  cases l <;> rfl

@[simp] lemma matchSegments_markEndpoint : n.markEndpoint.matchSegments l = true := by
  cases l <;> simp [markEndpoint, matchSegments, isEndpoint]

@[simp] lemma matchSegments_markWildcard : n.markWildcard.matchSegments l = true := by
  cases l <;> simp [markWildcard, matchSegments, hasWildcard]

lemma matchSegments_setChild {n c : TrieNode} {s : Bytes} {path : List Bytes} {p : Prop}
    (hc : ∀ l, c.matchSegments l = true ↔ ((n.child s).getD empty).matchSegments l = true ∨ p ∧ path <+: l)
    (l : List Bytes) : (n.setChild s c).matchSegments l = true ↔ n.matchSegments l = true ∨ p ∧ s :: path <+: l := by
  cases l with
  | nil => simp [matchSegments, setChild, isEndpoint, hasWildcard]
  | cons t l =>
    have hflags : (n.setChild s c).hasWildcard = n.hasWildcard ∧ (n.setChild s c).isEndpoint = n.isEndpoint :=
      ⟨rfl, rfl⟩
    unfold matchSegments
    rw [hflags.1, hflags.2, child_setChild, cons_prefix_cons]
    cases n.hasWildcard
    · cases n.isEndpoint
      · by_cases h : t = s
        · subst h
          simp only [if_true, true_and, Bool.false_eq_true, if_false, hc]
          cases n.child t <;> simp
        · simp [h, Ne.symm h]
      · simp
    · simp

/-- **After an insertion a trie matches what it matched before, and everything below the path if it was accepted.** -/
theorem matchSegments_insert (segments : List Bytes) (hne : segments ≠ []) (n : TrieNode) (l : List Bytes) :
    (n.insertSegments segments).2.matchSegments l = true ↔ n.matchSegments l = true ∨
      (n.insertSegments segments).1.isOk = true ∧ segments.takeWhile (fun s => s != [star]) <+: l := by
  induction segments generalizing n l with
  | nil => exact absurd rfl hne
  | cons s rest ih =>
    unfold insertSegments
    by_cases hs : s = [star]
    · by_cases hr : rest = [] <;> simp [hs, hr, Except.isOk, Except.toBool]
    simp only [hs, if_false]
    rw [takeWhile_cons_of_pos (by simpa using hs)]
    refine matchSegments_setChild (fun l' => ?_) l
    by_cases hr : rest = []
    · simp [hr, insertSegments, Except.isOk, Except.toBool]
    · simp only [hr, if_false]
      exact ih hr _ l'

lemma insertSegments_fst (segments : List Bytes) (n m : TrieNode) :
    (n.insertSegments segments).1 = (m.insertSegments segments).1 := by
  induction segments generalizing n m with
  | nil => rfl
  | cons s rest ih =>
    unfold insertSegments
    by_cases hs : s = [star]
    · by_cases hr : rest = [] <;> simp [hs, hr]
    · simp only [hs, if_false]
      exact ih _ _

lemma insertSegments_isOk {path tail : List Bytes} (hpath : [star] ∉ path) (htail : tail = [] ∨ tail = [[star]])
    (n : TrieNode) : (n.insertSegments (path ++ tail)).1.isOk = true := by
  induction path generalizing n with
  | nil => rcases htail with rfl | rfl <;> rfl
  | cons s path ih =>
    have hs : s ≠ [star] := fun h => hpath (by simp [h])
    simp only [cons_append, insertSegments, hs, if_false]
    exact ih (fun h => hpath (mem_cons_of_mem _ h)) _

end TrieNode

namespace ScopeTrie

lemma matchesResource_eq (t : ScopeTrie) (resource : Bytes) :
    t.matchesResource resource = t.root.matchSegments (splitScope resource) := by
  unfold matchesResource
  split
  · next h => cases splitScope resource <;> simp [TrieNode.matchSegments, h]
  · rfl

lemma matchesResource_insert (t : ScopeTrie) (scope resource : Bytes) :
    (t.insert scope).2.matchesResource resource = true ↔ t.matchesResource resource = true ∨
      (t.insert scope).1.isOk = true ∧ (splitScope scope).takeWhile (fun s => s != [star]) <+: splitScope resource := by
  simp only [matchesResource_eq]
  unfold insert
  split
  · next h => simp [h, splitScope, Except.isOk, Except.toBool]
  · cases validateScopeChars scope with
    | error e => simp [Except.isOk, Except.toBool]
    | ok _ =>
      by_cases h : splitScope scope = []
      · simp [h, Except.isOk, Except.toBool]
      · simp only [h, if_false]
        exact TrieNode.matchSegments_insert _ h _ _

lemma insert_fst (t t' : ScopeTrie) (scope : Bytes) : (t.insert scope).1 = (t'.insert scope).1 := by
  unfold insert
  split
  · rfl
  · cases validateScopeChars scope
    · rfl
    · dsimp only
      split
      · rfl
      · exact TrieNode.insertSegments_fst _ _ _

/-- The trie of a list of scopes, inserted in order, whether or not each is accepted. -/
def ofScopes (t : ScopeTrie) (scopes : List Bytes) : ScopeTrie := scopes.foldl (fun t s => (t.insert s).2) t

/-- The trie accepts the scope, and the segments before its wildcard begin those of the resource. -/
def Covers (scope resource : Bytes) : Prop :=
  (new.insert scope).1.isOk = true ∧ (splitScope scope).takeWhile (fun s => s != [star]) <+: splitScope resource

lemma matchesResource_ofScopes (scopes : List Bytes) (t : ScopeTrie) (resource : Bytes) :
    (t.ofScopes scopes).matchesResource resource = true ↔
      t.matchesResource resource = true ∨ ∃ s ∈ scopes, Covers s resource := by
  induction scopes generalizing t with
  | nil => simp [ofScopes]
  | cons s scopes ih =>
    rw [ofScopes, foldl_cons, ← ofScopes, ih, matchesResource_insert, insert_fst t new, or_assoc]
    simp [Covers]

/-- **A trie matches exactly what the accepted scopes cover, in whatever order they came in; a refused one changes
nothing.** -/
theorem matches_scopes (scopes : List Bytes) (resource : Bytes) :
    ((new.ofScopes scopes).matchesResource resource = true ↔ ∃ s ∈ scopes, Covers s resource) ∧
    (∀ scopes', (∀ s, s ∈ scopes' ↔ s ∈ scopes) →
      (new.ofScopes scopes').matchesResource resource = (new.ofScopes scopes).matchesResource resource) ∧
    ∀ s, ((new.ofScopes scopes).insert s).1.isOk = false →
      ((new.ofScopes scopes).insert s).2.matchesResource resource = (new.ofScopes scopes).matchesResource resource := by
  have hnew : (new.matchesResource resource = true) ↔ False := by rw [matchesResource_eq]; simp [new]
  have hiff := fun l => (matchesResource_ofScopes l new resource).trans (by rw [hnew, false_or])
  refine ⟨hiff scopes, fun scopes' hsame => ?_, fun s hs => ?_⟩
  · rw [Bool.eq_iff_iff, hiff, hiff]
    simp only [hsame]
  · rw [Bool.eq_iff_iff, matchesResource_insert, hs]
    simp

end ScopeTrie

/-! ### Segments -/

lemma splitScope_append_slash (p r : Bytes) : splitScope (p ++ slash :: r) = splitScope p ++ splitScope r := by
  unfold splitScope
  rw [splitOn_append_cons_self, filter_append]

@[simp] lemma splitScope_nil : splitScope [] = [] := rfl

lemma splitScope_endWithSlash_append (p r : Bytes) :
    splitScope (endWithSlash p ++ r) = splitScope p ++ splitScope r := by
  unfold endWithSlash
  split
  · next h =>
    obtain ⟨q, rfl⟩ := getLast?_eq_some_iff.1 h
    rw [append_assoc, singleton_append, splitScope_append_slash, splitScope_append_slash]
    simp
  · rw [append_assoc, singleton_append, splitScope_append_slash]

lemma mem_of_mem_splitOn {path seg : Bytes} (h : seg ∈ path.splitOn slash) : ∀ b ∈ seg, b ∈ path := by
  induction path generalizing seg with
  | nil => simp_all
  | cons a path ih =>
    intro b hb
    rw [splitOn_cons_eq_if_modifyHead] at h
    split at h
    · rcases mem_cons.1 h with rfl | h
      · simp at hb
      · exact mem_cons_of_mem _ (ih h b hb)
    · obtain ⟨s, rest, hs⟩ := exists_cons_of_ne_nil (splitOn_ne_nil slash path)
      rw [hs, modifyHead_cons] at h
      rw [hs] at ih
      rcases mem_cons.1 h with rfl | h
      · rcases mem_cons.1 hb with rfl | hb
        · exact mem_cons_self
        · exact mem_cons_of_mem _ (ih mem_cons_self b hb)
      · exact mem_cons_of_mem _ (ih (mem_cons_of_mem _ h) b hb)

lemma star_notMem_splitScope {path : Bytes} (h : star ∉ path) : [star] ∉ splitScope path :=
  fun hs => h (mem_of_mem_splitOn (mem_filter.1 hs).1 star (by simp))

variable {scope key : Bytes}

lemma splitScope_slashes (h : ∀ b ∈ scope, b = slash) : splitScope scope = [] := by
  induction scope with
  | nil => rfl
  | cons a scope ih =>
    obtain rfl := h a mem_cons_self
    have := splitScope_append_slash [] scope
    rw [nil_append, splitScope_nil, nil_append] at this
    rw [this, ih fun b hb => h b (mem_cons_of_mem _ hb)]

/-! ### What a scope matches -/

/-- A scope that is a path, with a wildcard segment behind it or not, matches every key below the path. -/
lemma scopeMatches_of_path {path tail : List Bytes} (hvalid : validateScopeChars scope = .ok ())
    (hsplit : splitScope scope = path ++ tail) (hpath : [star] ∉ path) (htail : tail = [] ∨ tail = [[star]])
    (hkey : path <+: splitScope key) : scopeMatches scope key = true := by
  have hok : (ScopeTrie.new.insert scope).1.isOk = true := by
    unfold ScopeTrie.insert
    rw [hvalid, hsplit]
    split
    · rfl
    dsimp only
    split
    · rfl
    · exact TrieNode.insertSegments_isOk hpath htail _
  have hlit : (splitScope scope).takeWhile (fun s => s != [star]) = path := by
    rw [hsplit, takeWhile_append_of_pos fun s hs => by simpa using fun h : s = [star] => hpath (h ▸ hs)]
    rcases htail with rfl | rfl <;> simp
  exact Bool.and_eq_true_iff.2 ⟨hok, (ScopeTrie.matchesResource_insert ..).2 (.inr ⟨hok, hlit ▸ hkey⟩)⟩

/-! ### The interval of a prefix -/

def nextByte (b : Fin 256) : Option (Fin 256) := if b ≠ 255 then some (b + 1) else none

lemma nextByte_nextLetter : NextLetter nextByte where
  lt_iff := by
    intro a b h c
    unfold nextByte at h
    split at h
    · next ha =>
      cases h
      have hval : (a + 1).val = a.val + 1 := Fin.val_add_one_of_lt (lt_of_le_of_ne (Fin.le_last a) ha)
      rw [Fin.lt_def, Fin.le_def, hval]
      exact Nat.lt_succ_iff
    · simp at h
  greatest := by
    intro a h c
    unfold nextByte at h
    split at h
    · simp at h
    · next ha => rw [not_not.1 ha]; exact Fin.le_last c

lemma popRaise_append (l : Bytes) (a : Fin 256) :
    popRaise (l ++ [a]) = match popRaise l with
      | some s => some (s ++ [a])
      | none => (nextByte a).map fun b => [b] := by
  induction l with
  | nil => simp only [nil_append, popRaise, nextByte]; split <;> rfl
  | cons b l ih =>
    simp only [cons_append, popRaise]
    split
    · rfl
    · exact ih

lemma prefixSuccessor_eq (p : Bytes) : prefixSuccessor p = prefixSucc nextByte p := by
  induction p with
  | nil => rfl
  | cons a p ih =>
    unfold prefixSucc
    rw [← ih]
    unfold prefixSuccessor
    rw [reverse_cons, popRaise_append]
    cases popRaise p.reverse with
    | none => cases nextByte a <;> rfl
    | some s => simp

lemma isPrefix_iff_of_successor {p s : Bytes} (h : prefixSuccessor p = some s) (k : Bytes) :
    p <+: k ↔ p ≤ k ∧ k < s :=
  isPrefix_iff_of_succ nextByte_nextLetter (by rw [← prefixSuccessor_eq]; exact h) k

lemma isPrefix_iff_of_no_successor {p : Bytes} (h : prefixSuccessor p = none) (k : Bytes) : p <+: k ↔ p ≤ k :=
  isPrefix_iff_of_no_succ nextByte_nextLetter (by rw [← prefixSuccessor_eq]; exact h) k

/-! ### From an interval to its keys -/

lemma eq_append_of_stripSuffix {ending text base : Bytes} (h : stripSuffix ending text = some base) :
    text = base ++ ending := by
  unfold stripSuffix at h
  split at h
  · next hs =>
    obtain ⟨t, rfl⟩ := hs
    cases h
    simp
  · simp at h

/-- The promise of the safe prefix: every key that starts with it matches the scope. -/
lemma scopeMatches_of_safe_prefix {pre : Bytes} (h : scopeSafeBytePrefix scope = some pre)
    (hkey : pre <+: key) : scopeMatches scope key = true := by
  unfold scopeSafeBytePrefix at h
  obtain ⟨r, rfl⟩ := hkey
  split at h
  · simp at h
  next hvalid =>
  split at h
  · -- "…/*": the wildcard is a segment of its own behind the segments of the base
    next base hbase =>
    have hsplit : splitScope scope = splitScope base ++ [[star]] := by
      rw [eq_append_of_stripSuffix hbase, splitScope_append_slash]
      rfl
    by_cases hstar : star ∈ base
    · simp [hstar] at h
    refine scopeMatches_of_path hvalid hsplit (star_notMem_splitScope hstar) (.inr rfl) ?_
    by_cases hnil : base = []
    · simp [hnil]
    · obtain rfl : endWithSlash base = pre := by simpa [hstar, hnil] using h
      exact ⟨splitScope r, (splitScope_endWithSlash_append base r).symm⟩
  · by_cases hstar : star ∈ scope
    · simp [hstar] at h
    · obtain rfl : endWithSlash scope = pre := by simpa [hstar] using h
      refine scopeMatches_of_path hvalid (append_nil _).symm (star_notMem_splitScope hstar) (.inl rfl) ?_
      exact ⟨splitScope r, (splitScope_endWithSlash_append scope r).symm⟩

lemma scopeMatches_of_match_all
    (h : scope = [] ∨ (∀ b ∈ scope, b = slash) ∨ scope = [slash, star] ∨ scope = [star]) (key : Bytes) :
    scopeMatches scope key = true := by
  have hslashes : (∀ b ∈ scope, b = slash) → scopeMatches scope key = true := by
    intro hs
    have hvalid : validateScopeChars scope = .ok () := by
      unfold validateScopeChars
      rw [findIdx?_eq_none_iff.2 fun b hb => by rw [hs b hb]; rfl]
    exact scopeMatches_of_path hvalid (show _ = [] ++ [] from splitScope_slashes hs) (by simp) (.inl rfl) (by simp)
  rcases h with rfl | hs | rfl | rfl
  · exact hslashes (by simp)
  · exact hslashes hs
  · exact scopeMatches_of_path rfl (show _ = [] ++ [[star]] from rfl) (by simp) (.inr rfl) (by simp)
  · exact scopeMatches_of_path rfl (show _ = [] ++ [[star]] from rfl) (by simp) (.inr rfl) (by simp)

lemma scopeMatches_of_covers {lo hi : Bytes} (hhi : hi ≠ []) (h : scopeCoversInterval scope lo hi = true)
    (hlo : lo ≤ key) (hkey : hi = unboundedRangeEnd ∨ key < hi) : scopeMatches scope key = true := by
  unfold scopeCoversInterval at h
  split at h
  · next hall => exact scopeMatches_of_match_all hall key
  split at h
  · simp at h
  next hbound =>
  have hlt : key < hi := hkey.resolve_left hbound
  split at h
  · simp at h
  next pre hpre =>
  refine scopeMatches_of_safe_prefix hpre ?_
  split at h
  · next hnil => simp [hnil]
  split at h
  · simp at h
  · next upper hupper =>
    rw [Bool.and_eq_true, decide_eq_true_iff, decide_eq_true_iff] at h
    exact (isPrefix_iff_of_successor hupper key).2 ⟨h.1.trans hlo, hlt.trans_le h.2⟩

lemma scopeAdmits_point {a : ScopeAccess} (h : scopeAdmits scope a = true)
    (ha : a.rangeEnd ≠ []) (hkey : a.Contains key) (hutf : isUtf8 key = true) :
    scopeAdmits scope (.point key) = true := by
  unfold ScopeAccess.Contains at hkey
  rw [if_neg ha] at hkey
  unfold scopeAdmits at h ⊢
  split at h
  · next hs => rw [if_pos hs]
  · next hs =>
    rw [if_neg hs]
    simp [ScopeAccess.point, hutf, scopeMatches_of_covers ha h hkey.1 hkey.2]

/-- **What is admitted as part of a request for intervals is admitted key by key**, by the same grants. -/
theorem scopeAllows_point {grants : List Bytes} {accesses : List ScopeAccess} {a : ScopeAccess}
    (h : scopeAllows grants accesses = true) (ha : a ∈ accesses) (hint : a.rangeEnd ≠ []) (hkey : a.Contains key)
    (hutf : isUtf8 key = true) : scopeAllows grants [.point key] = true := by
  unfold scopeAllows at h ⊢
  rw [if_neg (ne_nil_of_mem ha)] at h
  obtain ⟨scope, hscope, hadm⟩ := any_eq_true.1 (all_eq_true.1 h a ha)
  simp only [cons_ne_nil, if_false, all_cons, all_nil, Bool.and_true]
  exact any_eq_true.2 ⟨scope, hscope, scopeAdmits_point hadm hint hkey hutf⟩

end Coord.Auth
