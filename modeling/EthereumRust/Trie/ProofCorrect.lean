import EthereumRust.Trie.SameCode

/-!
# What a Merkle proof shows

`verify` compares the hash of the first node with the root hash, and no other hash with anything. So
a proof says what the root itself says, and nothing about what is behind a hash in the root.
-/

namespace EthereumRust.Trie
open Rust MerkleProof Nibbles PatriciaTrie

namespace MerkleProof

variable [ListHeader] {proof : MerkleProof} {n : Node} {key : Nibbles} {frames proofIndex : Nat}

theorem verifyAtNode_steps (h : n.Steps key m key') :
    proof.verifyAtNode (frames + 1) n key proofIndex =
      proof.verifyAtNode frames m key' (proofIndex + 1) := by
  cases h with
  | extension hk =>
    rw [verifyAtNode, commonPrefixLen_eq_length.mpr hk, if_pos rfl]
    rfl
  | branch hch =>
    rw [verifyAtNode, hch]
    rfl

def lookup (proof : MerkleProof) (frames proofIndex : Nat) : Place → Call TrieError (Option Bytes)
  | .reference hash rest => do
    let node ← proof.resolveProofNode (.hash hash) proofIndex
    proof.verifyAtNode frames node rest (proofIndex + 1)
  | place => .ok place.value

theorem verifyAtNode_stops (h : n.Stops key place) :
    proof.verifyAtNode (frames + 1) n key proofIndex = proof.lookup frames proofIndex place := by
  cases h with
  | empty => rfl
  | leaf =>
    rw [verifyAtNode, if_pos rfl]
    rfl
  | otherLeaf hk =>
    rw [verifyAtNode, if_neg hk]
    rfl
  | otherPath hk =>
    rw [verifyAtNode, if_neg (mt commonPrefixLen_eq_length.mp hk)]
    rfl
  | extension hk =>
    rw [verifyAtNode, commonPrefixLen_eq_length.mpr hk, if_pos rfl]
    rfl
  | value => rfl
  | noChild hch =>
    rw [verifyAtNode, hch]
    rfl
  | branch hch =>
    rw [verifyAtNode, hch]
    rfl

theorem lookup_of_inside (h : place.Inside) :
    proof.lookup frames proofIndex place = .ok place.value := by
  cases place with
  | reference hash rest => exact h.elim
  | _ => rfl

theorem verifyAtNode_of_inside (hn : n.Walkable) (h : (n.find key).Inside)
    (hfrs : key.length < frames) :
    proof.verifyAtNode frames n key proofIndex = .ok (n.find key).value := by
  induction n, key using Node.walk_induction generalizing frames proofIndex with
  | stop n key place hstp =>
    obtain ⟨frames, rfl⟩ := exists_frame hfrs
    rw [hstp.find] at h ⊢
    rw [verifyAtNode_stops hstp, lookup_of_inside h]
  | step n key m key' hstps ih =>
    obtain ⟨frames, rfl⟩ := exists_frame hfrs
    have hlt := hstps.length_lt hn
    rw [hstps.find] at h ⊢
    rw [verifyAtNode_steps hstps]
    exact ih (hn.inside hstps.inlinedIn) h (by omega)

theorem eq_value_of_verifyAtNode (hver : proof.verifyAtNode frames n key proofIndex = .ok value)
    (h : (n.find key).Inside) : value = (n.find key).value := by
  induction n, key using Node.walk_induction generalizing frames proofIndex with
  | stop n key place hstp =>
    cases frames with
    | zero => simp [verifyAtNode] at hver
    | succ frames =>
      rw [hstp.find] at h ⊢
      rw [verifyAtNode_stops hstp, lookup_of_inside h] at hver
      exact (Except.ok.inj hver).symm
  | step n key m key' hstps ih =>
    cases frames with
    | zero => simp [verifyAtNode] at hver
    | succ frames =>
      rw [hstps.find] at h ⊢
      rw [verifyAtNode_steps hstps] at hver
      exact ih hver h

theorem verify_eq_true [Crypto] {rootHash : H256} {key : Bytes} :
    proof.verify frames rootHash key expected = .ok true ↔
      ∃ first rest n, proof.nodes = first :: rest ∧ Node.decodeRaw first = .ok n ∧
        n.hash = rootHash ∧ proof.verifyAtNode frames n (fromBytes key) 1 = .ok expected := by
  unfold verify
  cases hnds : proof.nodes with
  | nil => simp
  | cons first rest =>
    cases hfst : Node.decodeRaw first with
    | error e => simp [hfst]
    | ok n =>
      by_cases hhash : n.hash = rootHash
      · cases hval : proof.verifyAtNode frames n (fromBytes key) 1 with
        | error e => simp [hfst, hhash, hval]
        | ok value =>
          cases value <;> cases expected <;> simp [hfst, hhash, hval, pure, Except.pure]
      · simp [hfst, hhash, pure, Except.pure]

def flood (value : Bytes) : Node := .branch (fun _ => some (.hash H256.zero)) (some value)

omit [ListHeader] in
theorem not_inlinedIn_flood {m : Node} : ¬m.InlinedIn (flood value) := fun ⟨_, h⟩ => nomatch h

theorem decodeRaw_flood [LawfulListHeader] (hval : value ≠ [])
    (hlen : (flood value).encodeRaw.length < 2 ^ 32) :
    Node.decodeRaw (flood value).encodeRaw = .ok (flood value) := by
  have htidy : (flood value).Tidy :=
    .intro (fun _ hm => (not_inlinedIn_flood hm).elim) fun _ hm => (not_inlinedIn_flood hm).elim
  have htrm : (flood value).Trimmed := .intro rfl fun _ hm => (not_inlinedIn_flood hm).elim
  have hkept : (flood value).ValuesKept := by
    refine .intro (fun cs heq => ?_) fun _ hm => (not_inlinedIn_flood hm).elim
    exact hval (Option.some.inj (Node.branch.inj heq).2)
  have hne : flood value ≠ .empty := nofun
  rw [Node.decodeRaw_encodeRaw hne htidy hlen, Node.reread_eq_self htrm hkept]

def forge (root : Node) (value : Bytes) (length : Nat) : MerkleProof :=
  ⟨root.encodeRaw :: List.replicate length (flood value).encodeRaw⟩

section
variable [LawfulListHeader] {root : Node} {value : Bytes}

theorem resolve_forge (hval : value ≠ []) (hlen : (flood value).encodeRaw.length < 2 ^ 32)
    {hash : H256} (hpos : 1 ≤ proofIndex) (hle : proofIndex ≤ length) :
    (forge root value length).resolveProofNode (.hash hash) proofIndex = .ok (flood value) := by
  obtain ⟨i, rfl⟩ := Nat.exists_eq_add_of_le' hpos
  have hnode : (forge root value length).nodes[i + 1]? = some (flood value).encodeRaw := by
    rw [forge, List.getElem?_cons_succ, List.getElem?_replicate, if_pos (Nat.lt_of_succ_le hle)]
  rw [resolveProofNode, hnode]
  exact decodeRaw_flood hval hlen

theorem verifyAtNode_flood (hval : value ≠ []) (hlen : (flood value).encodeRaw.length < 2 ^ 32)
    (hfrs : key.length < frames) (hpos : 1 ≤ proofIndex)
    (hle : proofIndex + key.length ≤ length + 1) :
    (forge root value length).verifyAtNode frames (flood value) key proofIndex =
      .ok (some value) := by
  induction key generalizing frames proofIndex with
  | nil =>
    obtain ⟨frames, rfl⟩ := exists_frame hfrs
    rfl
  | cons nibble key ih =>
    obtain ⟨frames, rfl⟩ := exists_frame hfrs
    rw [List.length_cons] at hfrs hle
    rw [flood, verifyAtNode]
    dsimp only
    rw [resolve_forge hval hlen hpos (by omega)]
    exact ih (by omega) (by omega) (by omega)

theorem verifyAtNode_forge (hval : value ≠ []) (hlen : (flood value).encodeRaw.length < 2 ^ 32)
    (hn : n.Walkable) {hash : H256} (h : n.find key = .reference hash rest)
    (hfrs : key.length < frames) (hpos : 1 ≤ proofIndex)
    (hle : proofIndex + key.length ≤ length + 1) :
    (forge root value length).verifyAtNode frames n key proofIndex = .ok (some value) := by
  induction n, key using Node.walk_induction generalizing frames proofIndex with
  | stop n key place hstp =>
    obtain ⟨frames, rfl⟩ := exists_frame hfrs
    obtain rfl := hstp.find.symm.trans h
    have hrest : rest.length < key.length := by
      cases hstp with
      | extension hk => exact length_drop_lt (hn.here _ _ rfl) hk (Nat.lt_succ_self _)
      | branch hch => exact Nat.lt_succ_self _
    rw [verifyAtNode_stops hstp, lookup, resolve_forge hval hlen hpos (by omega)]
    exact verifyAtNode_flood hval hlen (by omega) (by omega) (by omega)
  | step n key m key' hstps ih =>
    obtain ⟨frames, rfl⟩ := exists_frame hfrs
    have hlt := hstps.length_lt hn
    rw [hstps.find] at h
    rw [verifyAtNode_steps hstps]
    exact ih (hn.inside hstps.inlinedIn) h (by omega) (by omega) (by omega)

end

end MerkleProof

/-- The encoding of the node shows what is there: not behind a hash, and not for an empty value in
a branch. -/
def Place.Shown : Place → Prop
  | .reference _ _ => False
  | .branch (some []) => False
  | _ => True

theorem Place.Shown.inside {place : Place} (h : place.Shown) : place.Inside := by
  cases place with
  | reference hash rest => exact h
  | _ => trivial

theorem Place.Shown.reread {place : Place} (h : place.Shown) : place.reread = place := by
  match place with
  | .absent => rfl
  | .leaf _ => rfl
  | .reference _ _ => rfl
  | .branch none => rfl
  | .branch (some []) => exact h.elim
  | .branch (some (_ :: _)) => rfl

theorem Place.not_shown {place : Place} (h : ¬place.Shown) :
    (∃ hash rest, place = .reference hash rest) ∨ place = .branch (some []) := by
  match place with
  | .absent => exact (h trivial).elim
  | .leaf _ => exact (h trivial).elim
  | .reference hash rest => exact .inl ⟨hash, rest, rfl⟩
  | .branch none => exact (h trivial).elim
  | .branch (some []) => exact .inr rfl
  | .branch (some (_ :: _)) => exact (h trivial).elim

section
variable [Crypto] [ListHeader] [LawfulListHeader] {root : Node} {frames : Nat}

theorem verify_of_root (hne : root ≠ .empty) (htidy : root.Tidy) (htrm : root.Trimmed)
    (hlen : root.encodeRaw.length < 2 ^ 32) {proof : MerkleProof}
    (hnds : proof.nodes = root.encodeRaw :: rest)
    (h : proof.verifyAtNode frames root.reread (fromBytes key) 1 = .ok expected) :
    proof.verify frames root.hash key expected = .ok true := by
  rw [verify_eq_true]
  exact ⟨_, _, root.reread, hnds, Node.decodeRaw_encodeRaw hne htidy hlen,
    Node.hash_eq (Node.encodeRaw_reread htrm), h⟩

omit [Crypto] [LawfulListHeader] in
theorem shown_of_verifyAtNode (hfst : Node.decodeRaw first = .ok n)
    (hsame : n.encodeRaw = root.encodeRaw) (htidy : root.Tidy)
    (hlen : root.encodeRaw.length < 2 ^ 32) {proof : MerkleProof}
    (hver : proof.verifyAtNode frames n (fromBytes key) 1 = .ok value) :
    root.Trimmed ∧ ((root.find (fromBytes key)).Inside →
      value = (root.find (fromBytes key)).reread.value) := by
  obtain ⟨htrm, hkept⟩ := kept_of_decodeRawF hfst
  refine ⟨trimmed_of_encodeRaw_eq hsame hlen htidy htrm, fun hins => ?_⟩
  have hfind := find_of_encodeRaw_eq hsame hlen htidy hkept hins
  rw [← hfind]
  refine eq_value_of_verifyAtNode hver ?_
  rw [hfind]
  exact hins.reread

theorem verify_forge (hne : root ≠ .empty) (htidy : root.Tidy) (hwalk : root.Walkable)
    (htrm : root.Trimmed) (hlen : root.encodeRaw.length < 2 ^ 32) {hash : H256}
    (hfind : root.find (fromBytes key) = .reference hash rest) (hfrs : 2 * key.length < frames)
    (hval : value ≠ []) (hflo : (flood value).encodeRaw.length < 2 ^ 32) :
    (forge root value (2 * key.length)).verify frames root.hash key (some value) = .ok true := by
  have hrr : root.reread.find (fromBytes key) = .reference hash rest := by
    rw [Node.find_reread htrm, hfind]
    rfl
  refine verify_of_root hne htidy htrm hlen rfl ?_
  apply verifyAtNode_forge hval hflo hwalk.reread hrr
  · rwa [length_fromBytes]
  · exact le_refl 1
  · rw [length_fromBytes]
    omega

end

/-- For every trie and key: every accepted proof tells the truth if and only if the paths of the
root are not trimmed, so that none is accepted, or the root itself shows what is under the key. -/
theorem verify_sound_iff [Crypto] [ListHeader] [LawfulListHeader] (trie : PatriciaTrie)
    (model : Model) (hrep : Represents trie model) (load : Database → H256 → Call TrieError Node)
    (frames : Nat) (key : Bytes) (hkey : 2 * key.length < frames)
    (hlen : trie.root.encodeRaw.length < 2 ^ 32) (hbin : trie.root.HashBinds) :
    (∀ (proof : MerkleProof) (expected : Option Bytes),
        proof.verify frames trie.rootHash.1 key expected = .ok true →
          trie.get load frames key = .ok expected) ↔
      ¬trie.root.Trimmed ∨ (trie.root.find (fromBytes key)).Shown := by
  have htidy := hrep.tidy
  have hwalk := hrep.walkable
  have hfrs : (fromBytes key).length < frames := by rwa [length_fromBytes]
  rw [hrep.rootHash_eq]
  constructor
  · intro hsnd
    by_contra hnot
    obtain ⟨htrm, hsho⟩ := not_or.mp hnot
    have htrm := not_not.mp htrm
    have hne : trie.root ≠ .empty := by
      intro hemp
      rw [hemp] at hsho
      exact hsho trivial
    rcases Place.not_shown hsho with ⟨hash, rest, hfind⟩ | hfind
    · -- one of two forged values is not the answer of the trie
      have hfor {value : Bytes} (hval : value ≠ [])
          (hflo : (flood value).encodeRaw.length < 2 ^ 32) :=
        hsnd _ _ (verify_forge hne htidy hwalk htrm hlen hfind hkey hval hflo)
      have hone := @hfor [1] nofun (by decide +kernel)
      have htwo := @hfor [2] nofun (by decide +kernel)
      rw [hone] at htwo
      cases htwo
    · have hfind' : trie.root.reread.find (fromBytes key) = .branch none := by
        rw [Node.find_reread htrm, hfind]
        rfl
      have hver : verifyAtNode ⟨[trie.root.encodeRaw]⟩ frames trie.root.reread
          (fromBytes key) 1 = .ok none := by
        rw [verifyAtNode_of_inside hwalk.reread (by rw [hfind']; trivial) hfrs, hfind']
        rfl
      have hget := hsnd _ _ (verify_of_root hne htidy htrm hlen rfl hver)
      rw [PatriciaTrie.get, getAtNode_of_inside hwalk (by rw [hfind]; trivial) hfrs, hfind] at hget
      cases hget
  · intro h proof expected hver
    obtain ⟨first, rest, n, -, hfst, hhash, hver⟩ := verify_eq_true.mp hver
    obtain ⟨htrm, hval⟩ := shown_of_verifyAtNode hfst (hbin n hhash) htidy hlen hver
    have hsho := h.resolve_left (not_not.mpr htrm)
    rw [PatriciaTrie.get, getAtNode_of_inside hwalk hsho.inside hfrs, hval hsho.inside,
      hsho.reread]

section
open Forked Counting

theorem verify_sound_iff_forked :
    ∃ trie, (new ∅).run loadNode 8 forked = .ok trie ∧
      ∀ (proof : MerkleProof) (expected : Option Bytes),
        proof.verify 8 trie.rootHash.1 [0x11] expected = .ok true →
          trie.get loadNode 8 [0x11] = .ok expected := by
  obtain ⟨trie, hrun, hrep⟩ := run_forked
  have hroot : trie.root = toNode (treeAfter forked) := hrep.root
  refine ⟨trie, hrun,
    (verify_sound_iff trie _ hrep loadNode 8 [0x11] (by decide) ?_ ?_).mpr (.inr ?_)⟩
  · rw [hroot]
    decide +kernel
  · rw [hroot]
    exact hashBinds_forked
  · rw [hroot]
    trivial

/-- A proof with a leaf of the attacker's in the place of the one that was hashed. -/
theorem forged_proof_accepted :
    ∃ trie, (PatriciaTrie.new ∅).run loadNode 8 forked = .ok trie ∧ trie.root.HashBinds ∧
      (content forked).lookup [0x21] = some (List.replicate 40 7) ∧
      trie.get loadNode 8 [0x21] = Call.fail .keyNotFound ∧
      (mk [trie.root.encodeRaw, (Node.leaf [1] [9]).encodeRaw]).verify 8
        trie.rootHash.1 [0x21] (some [9]) = .ok true := by
  obtain ⟨trie, hrun, hrep⟩ := run_forked
  have hroot : trie.root = toNode (treeAfter forked) := hrep.root
  refine ⟨trie, hrun, ?_, rfl, ?_, ?_⟩
  · rw [hroot]
    exact hashBinds_forked
  · rw [PatriciaTrie.get, hrep.db, hroot]
    rfl
  · rw [hrep.rootHash, hroot]
    decide +kernel

end

section
variable [ListHeader]

theorem collectProofNodes_steps (h : n.Steps key m key') :
    collectProofNodes load (frames + 1) n key proof =
      collectProofNodes load frames m key' (proof.addNode n.encodeRaw) := by
  cases h with
  | extension hk =>
    rw [collectProofNodes, commonPrefixLen_eq_length.mpr hk, if_pos rfl]
    rfl
  | branch hch =>
    rw [collectProofNodes, hch]
    rfl

theorem collectProofNodes_stops (h : n.Stops key place) (hins : place.Inside) :
    collectProofNodes load (frames + 1) n key proof = .ok (proof.addNode n.encodeRaw) := by
  cases h with
  | empty => rfl
  | leaf => rfl
  | otherLeaf hk => rfl
  | otherPath hk => rw [collectProofNodes, if_neg (mt commonPrefixLen_eq_length.mp hk)]
  | extension hk => exact hins.elim
  | value => rfl
  | noChild hch => rw [collectProofNodes, hch]
  | branch hch => exact hins.elim

theorem collectProofNodes_of_inside (proof : MerkleProof)
    (hn : n.Walkable) (h : (n.find key).Inside) (hfrs : key.length < frames) :
    ∃ rest, collectProofNodes load frames n key proof =
      .ok ⟨proof.nodes ++ n.encodeRaw :: rest⟩ := by
  induction n, key using Node.walk_induction generalizing frames proof with
  | stop n key place hstp =>
    obtain ⟨frames, rfl⟩ := exists_frame hfrs
    rw [hstp.find] at h
    exact ⟨[], collectProofNodes_stops hstp h⟩
  | step n key m key' hstps ih =>
    obtain ⟨frames, rfl⟩ := exists_frame hfrs
    have hlt := hstps.length_lt hn
    have hnext : key'.length < frames := by omega
    rw [hstps.find] at h
    obtain ⟨rest, heq⟩ := ih _ (hn.inside hstps.inlinedIn) h hnext
    refine ⟨m.encodeRaw :: rest, ?_⟩
    rw [collectProofNodes_steps hstps, heq, addNode, List.append_assoc]
    rfl

theorem decodeRaw_empty [LawfulListHeader] : Node.decodeRaw Node.empty.encodeRaw ≠ .ok n := by
  obtain ⟨e, d, herr⟩ := LawfulListHeader.refuses (.new [0x80]) 0x80 [] rfl (by decide)
  intro h
  change Prod.fst <$> decodeRawWith (decodeRawF 0) (.new [0x80]) = _ at h
  rw [decodeRawWith, Decoding.bind_apply, rlp, Call.ofMethod, herr] at h
  cases h

end

/-- For every trie edited on a database without nodes, and every key: the generated proof is
accepted with the result of `get` if and only if the root is not empty, its paths are trimmed, and
it shows what is under the key. -/
theorem generateProof_complete_iff [Crypto] [ListHeader] [LawfulListHeader] (db : Database)
    (hfr : ∀ hash, db.lookup (nodeKey hash) = none) (ops : List Op) (frames : Nat)
    (hcom : .commit ∉ ops) (hops : ∀ op ∈ ops, op.Within frames) (trie : PatriciaTrie)
    (htrie : trie = (PatriciaTrie.new db).edit loadNode frames ops)
    (hlen : trie.root.encodeRaw.length < 2 ^ 32)
    (hdis : trie.root.reread.hash = trie.root.hash →
      trie.root.reread.encodeRaw = trie.root.encodeRaw)
    (load : H256 → Call TrieError Bytes) (key : Bytes) (hkey : 2 * key.length < frames) :
    (∃ value proof, trie.get loadNode frames key = .ok value ∧
        generateProof load frames trie.root key = .ok proof ∧
        proof.verify frames trie.rootHash.1 key value = .ok true) ↔
      trie.root ≠ .empty ∧ trie.root.Trimmed ∧ (trie.root.find (fromBytes key)).Shown := by
  obtain ⟨done, hrep, hdb⟩ := represents_edit hfr hcom hops htrie
  have htidy := hrep.tidy
  have hwalk := hrep.walkable
  have hfrs : (fromBytes key).length < frames := by rwa [length_fromBytes]
  rw [hrep.rootHash_eq, PatriciaTrie.get, generateProof, hdb]
  constructor
  · rintro ⟨value, proof, hget, hpro, hver⟩
    have hins : (trie.root.find (fromBytes key)).Inside := by
      cases hpl : trie.root.find (fromBytes key) with
      | reference hash rest =>
        rw [getAtNode_of_reference hwalk hpl (loadNode_of_fresh hfr hash) hfrs] at hget
        cases hget
      | _ => trivial
    obtain ⟨rest, heq⟩ := collectProofNodes_of_inside .new hwalk hins hfrs
    obtain rfl := Except.ok.inj (hpro.symm.trans heq)
    obtain ⟨first, rest', n, hnds, hfst, hhash, hver⟩ := verify_eq_true.mp hver
    obtain ⟨rfl, -⟩ := List.cons.inj hnds
    have hne : trie.root ≠ .empty := by
      intro hemp
      rw [hemp] at hfst
      exact decodeRaw_empty hfst
    obtain rfl := Except.ok.inj ((Node.decodeRaw_encodeRaw hne htidy hlen).symm.trans hfst)
    obtain ⟨htrm, hval⟩ := shown_of_verifyAtNode hfst (hdis hhash) htidy hlen hver
    refine ⟨hne, htrm, ?_⟩
    by_contra hsho
    rcases Place.not_shown hsho with ⟨hash, rest, hfind⟩ | hfind
    · rw [hfind] at hins
      exact hins
    · have hval := hval hins
      rw [getAtNode_of_inside hwalk hins hfrs] at hget
      rw [← Except.ok.inj hget, hfind] at hval
      cases hval
  · rintro ⟨hne, htrm, hsho⟩
    have hrr : trie.root.reread.find (fromBytes key) =
        trie.root.find (fromBytes key) := by
      rw [Node.find_reread htrm, hsho.reread]
    obtain ⟨rest, hpro⟩ := collectProofNodes_of_inside .new hwalk hsho.inside hfrs
    refine ⟨_, _, getAtNode_of_inside hwalk hsho.inside hfrs, hpro, ?_⟩
    refine verify_of_root hne htidy htrm hlen rfl ?_
    rw [verifyAtNode_of_inside hwalk.reread (by rw [hrr]; exact hsho.inside) hfrs, hrr]

section
open Forked Counting

theorem generateProof_complete_iff_forked :
    ∃ trie, (new ∅).run loadNode 8 forked = .ok trie ∧
      ∃ value proof, trie.get loadNode 8 [0x11] = .ok value ∧
        generateProof (fun _ => .ok []) 8 trie.root [0x11] = .ok proof ∧
        proof.verify 8 trie.rootHash.1 [0x11] value = .ok true := by
  obtain ⟨trie, hrun, hrep⟩ := run_forked
  have hroot : trie.root = toNode (treeAfter forked) := hrep.root
  refine ⟨trie, hrun, (generateProof_complete_iff ∅ (fun _ => rfl) forked 8 (by simp [forked])
    (by simp [forked, Op.Within]) trie (edit_of_run hrun).symm ?_ ?_ _ [0x11]
    (by decide)).mpr ⟨?_, ?_, ?_⟩⟩
  · rw [hroot]
    decide +kernel
  · rw [hroot]
    exact fun _ => Node.encodeRaw_reread trimmed_forked
  · rw [hroot]
    intro h
    cases h
  · rw [hroot]
    exact trimmed_forked
  · rw [hroot]
    trivial

/-- The path of the only leaf is 1, 0. The verifier decodes it to 1, and the hash of that leaf is
not the root hash. -/
theorem generated_proof_refused :
    ∃ trie proof, (new ∅).run loadNode 8 [.insert [0x10] [1]] = .ok trie ∧
      trie.get loadNode 8 [0x10] = .ok (some [1]) ∧
      generateProof (fun _ => .ok []) 8 trie.root [0x10] = .ok proof ∧
      proof.verify 8 trie.rootHash.1 [0x10] (some [1]) = .ok false :=
  ⟨_, _, rfl, rfl, rfl, by decide +kernel⟩

end

end EthereumRust.Trie
