import EthereumRust.Lib.Blocks
import EthereumRust.Verkle.Map

/-!
# What the root commitment binds

A new path, and the branch that a split creates, keep the empty commitment until an insertion goes
through them, and the hash of a branch does not say which bytes its children stand for. Inserting
all keys a second time commits to every node above a value (`SealedAt`). Then the root commitment
tells apart trees with the same keys and different values, as long as no two byte strings that are
hashed collide.
-/

namespace EthereumRust.Verkle

open Rust WordMap List Function

namespace VerkleNode

mutual

def hashed : VerkleNode → List Bytes
  | extension stem suffixTree c => nodeData (.extension stem suffixTree c) :: slotHashed suffixTree
  | branch children value c =>
    nodeData (.branch children value c) :: allBytes.flatMap fun i => slotHashed (children i)
  | leaf value _ => [value]

/-- The byte strings that the commitments of a tree are hashes of. -/
def slotHashed : Option VerkleNode → List Bytes
  | none => []
  | some node => hashed node

end

theorem nodeData_mem_hashed : nodeData node ∈ node.hashed := by
  cases node with
  | extension => exact mem_cons_self
  | branch => exact mem_cons_self
  | leaf => exact mem_cons_self

theorem branchData_mem_hashed :
    branchData cs ∈ (extension stem (some (.branch cs none c')) c).hashed := by
  rw [hashed, slotHashed, hashed, nodeData, nodeData, Option.getD_none, append_nil]
  exact mem_cons_of_mem _ mem_cons_self

theorem mem_allBytes : i ∈ allBytes :=
  mem_map.mpr ⟨i.toNat, mem_range.mpr i.toNat_lt, UInt8.ofNat_toNat⟩

theorem child_hashed_subset {cs : UInt8 → Option VerkleNode} (h : cs i = some child) :
    child.hashed ⊆ (extension stem (some (.branch cs value c')) c).hashed := by
  intro data hdata
  refine mem_cons_of_mem _ (mem_cons_of_mem _ (mem_flatMap.mpr ⟨i, mem_allBytes, ?_⟩))
  rw [h]
  exact hdata

/-- The shape of a node behind which there are `n` bytes of a key, and some key. A child of a branch
is of this shape, or it is what a split has left of the path of zeros. -/
inductive Full : Nat → VerkleNode → Prop where
  | value : n = stem.length → Full n (.extension stem (some (.leaf v c')) c)
  | fork : n = stem.length + 1 + m → children i = some child → Full m child →
    (∀ j child, children j = some child → (∀ stem, child ≠ .newExtension stem) → Full m child) →
    Full n (.extension stem (some (.branch children none c')) c)

section
variable {cs : UInt8 → Option VerkleNode}

theorem contents_value : contents (.extension stem (some (.leaf v c')) c) stem = some v := by
  have h : under stem (only v) (stem ++ []) = some v := under_append_apply
  rwa [append_nil] at h

theorem contents_child :
    contents (.extension stem (some (.branch cs none c')) c) (stem ++ i :: rest) =
      slotContents (cs i) rest := by
  rw [contents_fork, under_append_apply]
  rfl

theorem contents_newExtension : contents (.newExtension stem) = void := by
  rw [newExtension, contents, slotContents, under_void]

theorem Full.exists_key (h : Full n node) :
    ∃ path, path.length = n ∧ node.contents path ≠ none := by
  induction h with
  | @value n stem v c' c hn => exact ⟨stem, hn.symm, by simp [contents_value]⟩
  | @fork n m cs child stem c' c i hn hi _ _ ih =>
    obtain ⟨path, hlen, hpath⟩ := ih
    refine ⟨stem ++ i :: path, ?_, ?_⟩
    · rw [length_append, length_cons]
      omega
    · rwa [contents_child, hi]

theorem Full.of_split (h : Full (p.length + 1 + m) (.extension (p ++ a :: old) suf c)) :
    Full m (.extension old suf .default) := by
  have hlen : (p ++ a :: old).length = p.length + 1 + old.length := by
    simp only [length_append, length_cons]
    omega
  cases h with
  | value hn => exact .value (by omega)
  | fork hn hi hch hchs => exact .fork (by omega) hi hch hchs

end

section
variable [Crypto]

def kzg (data : Bytes) : Commitment := ⟨(keccak256 data).toList, .kzg⟩

/-- The nodes on a path have the commitments that belong to them. -/
inductive SealedAt : VerkleNode → Bytes → Prop where
  | value : SealedAt (.extension stem (some (.leaf v (kzg v))) (kzg (stem ++ (kzg v).value))) stem
  | fork : children i = some child → SealedAt child rest →
    SealedAt (.extension stem (some (.branch children none (kzg (branchData children))))
      (kzg (stem ++ (kzg (branchData children)).value))) (stem ++ i :: rest)

theorem SealedAt.commitment_eq (h : SealedAt node path) :
    node.commitment = kzg (nodeData node) := by
  cases h with
  | value => rfl
  | fork => rfl

end

end VerkleNode

open VerkleNode

section
variable [Crypto] {engine : VerkleCommitment} {path : Bytes}

theorem Inserts.full (h : Inserts engine value node path node')
    (hnode : (∀ stem, node ≠ .newExtension stem) → Full path.length node) :
    Full path.length node' := by
  have hlen (stem : Bytes) (i : UInt8) (rest : Bytes) :
      (stem ++ i :: rest).length = stem.length + 1 + rest.length := by
    simp only [length_append, length_cons]
    omega
  have hpath (rest : Bytes) : Full rest.length (.newPath rest value) := .value rfl
  induction h with
  | fill =>
    exact .fork (hlen ..) (update_self ..) (hpath _)
      (children_add children_none fun _ => hpath _)
  | replace => exact .value rfl
  | add =>
    cases hnode (by rintro _ ⟨⟩) with
    | fork hn _ _ hchs =>
      obtain rfl := add_left_cancel (hn.symm.trans (hlen ..))
      exact .fork hn (update_self ..) (hpath _) (children_add hchs fun _ => hpath _)
  | descend hsome _ ih =>
    cases hnode (by rintro _ ⟨⟩) with
    | fork hn _ _ hchs =>
      obtain rfl := add_left_cancel (hn.symm.trans (hlen ..))
      have hch := ih (hchs _ _ hsome)
      exact .fork hn (update_self ..) hch (children_add hchs fun _ => hch)
  | @split a b p old suf c new hne =>
    refine .fork (hlen ..) (update_self ..) (hpath _) (children_add
      (children_add children_none fun hne => ?_) fun _ => hpath _)
    rw [hlen] at hnode
    refine (hnode ?_).of_split
    rintro _ ⟨⟩
    exact hne old rfl

/-- The insertion of a key that is there commits to the path of the key, and takes away no
commitment. -/
theorem Inserts.sealedAt (hdig : engine.digest = kzg) (h : Inserts engine value node path node')
    (hpath : node.contents path ≠ none) :
    SealedAt node' path ∧ ∀ other, SealedAt node other → SealedAt node' other := by
  induction h with
  | fill => exact absurd (by rw [contents, slotContents, under_void]; rfl) hpath
  | replace =>
    rw [VerkleCommitment.sealedExtension, VerkleCommitment.sealedLeaf, hdig]
    refine ⟨.value, fun other hoth => ?_⟩
    cases hoth
    exact .value
  | add hnone => exact absurd (by rw [contents_child, hnone]; rfl) hpath
  | @descend cs child rest child' stem c' c i hsome _ ih =>
    rw [contents_child, hsome, slotContents] at hpath
    obtain ⟨hch, hkept⟩ := ih hpath
    rw [VerkleCommitment.sealedExtension, VerkleCommitment.sealedBranch, hdig]
    refine ⟨.fork (update_self ..) hch, fun other hoth => ?_⟩
    cases hoth with
    | @fork _ child₁ _ _ j hj hoth =>
      by_cases hji : j = i
      · subst hji
        cases hsome.symm.trans hj
        exact .fork (update_self ..) (hkept _ hoth)
      · exact .fork ((update_of_ne hji ..).trans hj) hoth
  | @split a b p old suf c new hne =>
    refine absurd ?_ hpath
    rw [contents, under_eq_none]
    simp [prefix_append_right_inj, cons_prefix_cons, hne]

/-- No two of the hashed inputs have one hash. -/
def NoCollision (hashed hashed' : List Bytes) : Prop :=
  ∀ data ∈ hashed, ∀ data' ∈ hashed', keccak256 data = keccak256 data' → data = data'

instance (hashed hashed' : List Bytes) : Decidable (NoCollision hashed hashed') :=
  inferInstanceAs (Decidable (∀ data ∈ hashed, ∀ data' ∈ hashed',
    keccak256 data = keccak256 data' → data = data'))

theorem NoCollision.mono (h : NoCollision l l') (hsub : sub ⊆ l) (hsub' : sub' ⊆ l') :
    NoCollision sub sub' :=
  fun data hdata data' hdata' => h data (hsub hdata) data' (hsub' hdata')

theorem NoCollision.eq (h : NoCollision l l') (hd : d ∈ l) (hd' : d' ∈ l')
    (heq : (kzg d).value = (kzg d').value) : d = d' :=
  h d hd d' hd' (List.Vector.eq _ _ heq)

theorem length_kzg (data : Bytes) : (kzg data).value.length = 32 := List.Vector.toList_length _

/-- Extensions with the same commitment have the same stem, and suffix trees with the same data. -/
theorem NoCollision.extension_inj (h : NoCollision l l') (ha : stem ++ (kzg d).value ∈ l)
    (hd : d ∈ l) (hb : stem' ++ (kzg d').value ∈ l') (hd' : d' ∈ l')
    (heq : (kzg (stem ++ (kzg d).value)).value = (kzg (stem' ++ (kzg d').value)).value) :
    stem = stem' ∧ d = d' := by
  obtain ⟨hstem, hval⟩ := append_inj' (h.eq ha hb heq) (by rw [length_kzg, length_kzg])
  exact ⟨hstem, h.eq hd hd' hval⟩

/-- The children at one byte, in two branches over the same keys. -/
inductive Matched (m : Nat) : Option VerkleNode → Option VerkleNode → Prop where
  | vacant : slotContents s = slotContents t → (slotCommitment s).value = [] →
    (slotCommitment t).value = [] → Matched m s t
  | full : Full m a → Full m b → (∀ stem, a ≠ .newExtension stem) → Matched m (some a) (some b)

omit [Crypto] in
theorem vacant_or_full (h : ∀ child, s = some child → (∀ stem, child ≠ .newExtension stem) →
      Full m child) : slotContents s = void ∧ (slotCommitment s).value = [] ∨
    ∃ child, s = some child ∧ Full m child ∧ ∀ stem, child ≠ .newExtension stem := by
  cases s with
  | none => exact .inl ⟨rfl, rfl⟩
  | some child =>
    by_cases hvac : ∃ stem, child = .newExtension stem
    · obtain ⟨stem, rfl⟩ := hvac
      exact .inl ⟨contents_newExtension, rfl⟩
    · rw [not_exists] at hvac
      exact .inr ⟨child, rfl, h child rfl hvac, hvac⟩

omit [Crypto] in
theorem matched_of_keys
    (hs : ∀ child, s = some child → (∀ stem, child ≠ .newExtension stem) → Full m child)
    (ht : ∀ child, t = some child → (∀ stem, child ≠ .newExtension stem) → Full m child)
    (hkeys : ∀ path : Bytes, path.length = m →
      (slotContents s path = none ↔ slotContents t path = none)) : Matched m s t := by
  rcases vacant_or_full hs with ⟨hvoid, hval⟩ | ⟨a, rfl, ha, hne⟩ <;>
    rcases vacant_or_full ht with ⟨hvoid', hval'⟩ | ⟨b, rfl, hb, -⟩
  · exact .vacant (hvoid.trans hvoid'.symm) hval hval'
  · obtain ⟨path, hlen, hpath⟩ := hb.exists_key
    exact absurd ((hkeys path hlen).mp (congrFun hvoid path)) hpath
  · obtain ⟨path, hlen, hpath⟩ := ha.exists_key
    exact absurd ((hkeys path hlen).mpr (congrFun hvoid' path)) hpath
  · exact .full ha hb hne

def Sealed (n : Nat) (node : VerkleNode) : Prop :=
  ∀ path, path.length = n → node.contents path ≠ none → SealedAt node path

theorem Sealed.child {cs : UInt8 → Option VerkleNode}
    (h : Sealed (stem.length + 1 + m) (.extension stem (some (.branch cs none c')) c))
    (hi : cs i = some node) : Sealed m node := by
  intro path hlen hpath
  have hat := h (stem ++ i :: path) (by rw [length_append, length_cons]; omega)
    (by rwa [contents_child, hi])
  generalize hwho : stem ++ i :: path = whole at hat
  cases hat with
  | fork hj hrest =>
    obtain ⟨rfl, rfl⟩ := cons.inj (append_cancel_left hwho)
    cases hi.symm.trans hj
    exact hrest

theorem Sealed.exists_sealedAt (h : Sealed n node) (hnode : Full n node) :
    ∃ path, SealedAt node path := by
  obtain ⟨path, hlen, hpath⟩ := hnode.exists_key
  exact ⟨path, h path hlen hpath⟩

theorem length_slotCommitment (h : Full m node) (hsea : Sealed m node) :
    (slotCommitment (some node)).value.length = 32 := by
  obtain ⟨path, hat⟩ := hsea.exists_sealedAt h
  rw [slotCommitment, hat.commitment_eq, length_kzg]

theorem slotCommitment_eq_of_branchData_eq {cs cs' : UInt8 → Option VerkleNode}
    (hsa : ∀ j child, cs j = some child → Sealed m child)
    (hsb : ∀ j child, cs' j = some child → Sealed m child) (hmat : ∀ j, Matched m (cs j) (cs' j))
    (h : branchData cs = branchData cs') (j : UInt8) :
    (slotCommitment (cs j)).value = (slotCommitment (cs' j)).value := by
  have hlen (j : UInt8) : (slotCommitment (cs j)).value.length =
      (slotCommitment (cs' j)).value.length := by
    have hj := hmat j
    generalize hs : cs j = s at hj ⊢
    generalize ht : cs' j = t at hj ⊢
    cases hj with
    | vacant _ hval hval' => rw [hval, hval']
    | full ha hb =>
      rw [length_slotCommitment ha (hsa j _ hs), length_slotCommitment hb (hsb j _ ht)]
  exact forall₂_same.mp (Blocks.forall₂_of_flatMap_eq (forall₂_same.mpr fun j _ => hlen j) h) j
    mem_allBytes

/-- With the same keys and no collision, one commitment means the same values. -/
theorem contents_eq_of_sealed (ha : Full n a) (hb : Full n b) (hsa : Sealed n a) (hsb : Sealed n b)
    (hkeys : ∀ path : Bytes, path.length = n → (a.contents path = none ↔ b.contents path = none))
    (hfree : NoCollision a.hashed b.hashed) (h : a.commitment.value = b.commitment.value) :
    a.contents = b.contents := by
  -- Equal commitments have equal stems, so `a` and `b` end or fork at the same depth.
  induction ha generalizing b with
  | value hn =>
    obtain ⟨_, hat'⟩ := hsb.exists_sealedAt hb
    obtain ⟨_, hat⟩ := hsa.exists_sealedAt (.value hn)
    cases hat
    cases hb with
    | value hn' =>
      cases hat'
      obtain ⟨rfl, rfl⟩ := hfree.extension_inj nodeData_mem_hashed (mem_cons_of_mem _ mem_cons_self)
        nodeData_mem_hashed (mem_cons_of_mem _ mem_cons_self) h
      rfl
    | fork hn' =>
      cases hat'
      obtain ⟨rfl, -⟩ := hfree.extension_inj nodeData_mem_hashed (mem_cons_of_mem _ mem_cons_self)
        nodeData_mem_hashed branchData_mem_hashed h
      omega
  | @fork n m cs child stem c' c i hn hi hch hchs _ ih =>
    obtain ⟨_, hat'⟩ := hsb.exists_sealedAt hb
    obtain ⟨_, hat⟩ := hsa.exists_sealedAt (.fork hn hi hch hchs)
    cases hat
    cases hb with
    | value hn' =>
      cases hat'
      obtain ⟨rfl, -⟩ := hfree.extension_inj nodeData_mem_hashed branchData_mem_hashed
        nodeData_mem_hashed (mem_cons_of_mem _ mem_cons_self) h
      omega
    | @fork _ m' cs' child' stem' _ _ i' hn' hi' _ hchs' =>
      cases hat'
      obtain ⟨rfl, hdata⟩ := hfree.extension_inj nodeData_mem_hashed branchData_mem_hashed
        nodeData_mem_hashed branchData_mem_hashed h
      subst hn
      obtain rfl := add_left_cancel hn'
      have hslo (j : UInt8) (path : Bytes) (hlen : path.length = m) :
          slotContents (cs j) path = none ↔ slotContents (cs' j) path = none := by
        have hpath := hkeys (stem ++ j :: path) (by rw [length_append, length_cons]; omega)
        rwa [contents_child, contents_child] at hpath
      have hmat (j : UInt8) :=
        matched_of_keys (hchs j) (hchs' j) (hslo j)
      have hval := slotCommitment_eq_of_branchData_eq (fun _ _ => hsa.child)
        (fun _ _ => hsb.child) hmat hdata
      have hsame : slotContents ∘ cs = slotContents ∘ cs' := by
        funext j
        have hj := hmat j
        have hkeys := hslo j
        have hvalue := hval j
        simp only [comp_apply]
        generalize hs : cs j = s at hj hkeys hvalue ⊢
        generalize ht : cs' j = t at hj hkeys hvalue ⊢
        cases hj with
        | vacant hvoid => exact hvoid
        | full _ hb hne =>
          exact ih j _ hs hne hb (hsa.child hs) (hsb.child ht) hkeys
            (hfree.mono (child_hashed_subset hs) (child_hashed_subset ht)) hvalue
      rw [contents_fork, contents_fork, hsame]

end

namespace VerkleTree

section
variable [Crypto] [Build] {tree tree' : VerkleTree}

/-- A tree that insertions have built under the KZG scheme. -/
def KzgBuilt (insertions : List Insertion) (tree : VerkleTree) : Prop :=
  ∃ config start, config.commitmentScheme = .kzg ∧ config.keyLength = 32 ∧
    new config = .ok start ∧ insertions ≠ [] ∧ start.insertAll insertions = .ok tree

/-- Every key is inserted again when all of them are there. -/
def Refreshed (insertions : List Insertion) : Prop :=
  ∃ old new, insertions = old ++ new ∧ ∀ key, key ∈ old.map (·.key) ↔ key ∈ new.map (·.key)

omit [Crypto] [Build] in
theorem lastInserted_eq_none : lastInserted ins key = none ↔ key ∉ ins.map (·.key) := by
  simp [lastInserted]

/-- The root after some insertions: if the last ones were of keys that had been there before them,
the paths of these keys are committed to. -/
structure Committed (insertions : List Insertion) (root : VerkleNode) : Prop where
  full : (∀ stem, root ≠ .newExtension stem) → Full 32 root
  sealedAt : ∀ old new, insertions = old ++ new → (∀ i ∈ new, i.key ∈ old.map (·.key)) →
    ∀ i ∈ new, SealedAt root i.key.toList

omit [Build] in
theorem committed_new : Committed [] (.newExtension stem) where
  full h := absurd rfl (h stem)
  sealedAt old new h _ i hi := by
    rw [(append_eq_nil_iff.mp h.symm).2] at hi
    cases hi

omit [Build] in
theorem Committed.insert (hdig : engine.digest = kzg)
    (hcon : ∀ key : H256, node.contents key.toList = lastInserted ins key)
    (hins : Inserts engine insertion.value node insertion.key.toList node')
    (h : Committed ins node) : Committed (ins ++ [insertion]) node' where
  full _ := by
    have hfull := hins.full
    rw [insertion.key.toList_length] at hfull
    exact hfull h.full
  sealedAt old new heq hthe := by
    rcases eq_nil_or_concat' new with rfl | ⟨new, last, rfl⟩
    · nofun
    · rw [← append_assoc] at heq
      obtain ⟨rfl, hlast⟩ := append_inj' heq rfl
      obtain rfl := singleton_inj.mp hlast
      rw [forall_mem_append, forall_mem_singleton] at hthe ⊢
      have hpath : node.contents insertion.key.toList ≠ none := by
        rw [hcon, Ne, lastInserted_eq_none, not_not, map_append]
        exact mem_append_left _ hthe.2
      obtain ⟨hnew, hkept⟩ := hins.sealedAt hdig hpath
      exact ⟨fun i hi => hkept _ (h.sealedAt old new rfl hthe.1 i hi), hnew⟩

theorem digest_eq_kzg {cfg : VerkleConfig} (hkzg : cfg.commitmentScheme = .kzg)
    (hnew : new cfg = .ok start) : start.commitmentEngine.digest = kzg := by
  obtain ⟨engine, heng, hst⟩ := hnew.of_bind
  cases hst
  rw [VerkleCommitment.new, hkzg] at heng
  cases heng
  funext data
  rw [VerkleCommitment.digest, hkzg]
  rfl

theorem KzgBuilt.exists_root (h : KzgBuilt ins tree) (haga : Refreshed ins) :
    ∃ root, tree.root = some root ∧ Full 32 root ∧ Sealed 32 root ∧
      ∀ key : H256, root.contents key.toList = lastInserted ins key := by
  obtain ⟨cfg, start, hkzg, hkey, hnew, hne, hrun⟩ := h
  have hdig := digest_eq_kzg hkzg hnew
  obtain ⟨tree', hrun', hgr, H⟩ :=
    insertAll_induct hnew hkey committed_new (Committed.insert hdig) ins
  obtain rfl := Except.ok.inj (hrun.symm.trans hrun')
  obtain ⟨root, hroot, hcom⟩ := hgr.root hne
  have hcon := hgr.contents_eq
  rw [rootOrNew, hroot, Option.getD_some] at H hcon
  refine ⟨root, hroot, H.full ?_, ?_, hcon⟩
  · rintro stem rfl
    rw [hdig] at hcom
    cases congrArg Commitment.commitmentType hcom
  · intro path hlen hpath
    obtain ⟨key, rfl⟩ : ∃ key : H256, key.toList = path := ⟨⟨path, hlen⟩, rfl⟩
    obtain ⟨old, new, rfl, hkeys⟩ := haga
    rw [hcon, Ne, lastInserted_eq_none, not_not, map_append, mem_append, hkeys, or_self]
      at hpath
    obtain ⟨i, hi, rfl⟩ := mem_map.mp hpath
    exact H.sealedAt old new rfl (fun i hi => (hkeys _).mpr (mem_map_of_mem hi)) i hi

/-- Trees in which all keys were inserted a second time have different root commitments, if they
have the same keys with different values. -/
theorem rootCommitment_binds (h : KzgBuilt ins tree) (h' : KzgBuilt ins' tree')
    (haga : Refreshed ins) (haga' : Refreshed ins')
    (hkeys : ∀ key, key ∈ ins.map (·.key) ↔ key ∈ ins'.map (·.key))
    (hfree : NoCollision (slotHashed tree.root) (slotHashed tree'.root))
    (hne : lastInserted ins ≠ lastInserted ins') : tree.rootCommitment ≠ tree'.rootCommitment := by
  obtain ⟨root, hroot, hfull, hsea, hcon⟩ := h.exists_root haga
  obtain ⟨root', hroot', hfull', hsea', hcon'⟩ := h'.exists_root haga'
  rw [rootCommitment, rootCommitment, hroot, hroot', Option.map_some, Option.map_some]
  intro heq
  have hsame : root.contents = root'.contents := by
    rw [hroot, hroot'] at hfree
    refine contents_eq_of_sealed hfull hfull' hsea hsea' (fun path hlen => ?_) hfree
      (congrArg Commitment.value (Option.some.inj heq))
    obtain ⟨key, rfl⟩ : ∃ key : H256, key.toList = path := ⟨⟨path, hlen⟩, rfl⟩
    rw [hcon, hcon', lastInserted_eq_none, lastInserted_eq_none, hkeys]
  exact hne (funext fun key => by rw [← hcon, ← hcon', hsame])

end

section
open Horner Debug

def twice (value : Bytes) : List Insertion :=
  [⟨[], H256.zero, value⟩, ⟨[], sampleKey, value⟩, ⟨[], H256.zero, value⟩, ⟨[], sampleKey, value⟩]

def collisionFree (insertions insertions' : List Insertion) : Bool :=
  match sampleTree.insertAll insertions, sampleTree.insertAll insertions' with
  | .ok tree, .ok tree' => decide (NoCollision (slotHashed tree.root) (slotHashed tree'.root))
  | _, _ => false

theorem rootCommitment_binds_twice : ∃ tree tree' : VerkleTree,
    sampleTree.insertAll (twice [1]) = .ok tree ∧ sampleTree.insertAll (twice [2]) = .ok tree' ∧
    tree.rootCommitment ≠ tree'.rootCommitment := by
  have hruns (value : Bytes) : ∃ tree, sampleTree.insertAll (twice value) = .ok tree :=
    (exists_insertAll new_sampleConfig rfl).imp fun _ => And.left
  obtain ⟨tree, hrun⟩ := hruns [1]
  obtain ⟨tree', hrun'⟩ := hruns [2]
  have hfree : collisionFree (twice [1]) (twice [2]) = true := by decide +kernel
  rw [collisionFree, hrun, hrun'] at hfree
  have hbui {value tree} (hrun : sampleTree.insertAll (twice value) = .ok tree) :
      KzgBuilt (twice value) tree :=
    ⟨sampleConfig, sampleTree, rfl, rfl, rfl, cons_ne_nil _ _, hrun⟩
  have haga (value : Bytes) : Refreshed (twice value) :=
    ⟨(twice value).take 2, (twice value).drop 2, rfl, fun _ => Iff.rfl⟩
  refine ⟨tree, tree', hrun, hrun', rootCommitment_binds (hbui hrun) (hbui hrun') (haga _)
    (haga _) (fun _ => Iff.rfl) (of_decide_eq_true hfree) fun h => ?_⟩
  cases congrFun h H256.zero

/-- A first insertion of a key that does not start with a zero byte: the root commitment is the hash
of nothing, whatever the value is. -/
theorem rootCommitment_not_binding : ∃ tree tree' : VerkleTree,
    sampleTree.insertAll [⟨[], sampleKey, [1]⟩] = .ok tree ∧
    sampleTree.insertAll [⟨[], sampleKey, [2]⟩] = .ok tree' ∧
    NoCollision (slotHashed tree.root) (slotHashed tree'.root) ∧
    tree.lookup sampleKey.toList ≠ tree'.lookup sampleKey.toList ∧
    tree.rootCommitment = tree'.rootCommitment :=
  ⟨_, _, rfl, rfl, by decide +kernel, by decide +kernel, by decide +kernel⟩

end

end VerkleTree

end EthereumRust.Verkle
