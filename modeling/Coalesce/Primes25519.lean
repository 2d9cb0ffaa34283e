import Coalesce.Library.PrattCertificate

/-! The two primes of Curve25519 and Ed25519: the order of the field and the order
of the base point. -/

namespace Coalesce.Primes25519
open Library.PrattCertificate

/-- The field is `GF(2^255 - 19)`. -/
def P : ℕ := 2 ^ 255 - 19

/-- The order of the base point, `SC_L` as a number. -/
def L : ℕ := 2 ^ 252 + 27742317777372353535851937790883648493

/-- The primes below them, each with a generator and the factors of its predecessor. -/
def entries : List Entry :=
  [⟨3, 2, [2]⟩, ⟨5, 2, [2, 2]⟩, ⟨7, 3, [2, 3]⟩, ⟨11, 2, [2, 5]⟩, ⟨13, 2, [2, 2, 3]⟩, ⟨17, 3, [2, 2, 2, 2]⟩,
    ⟨19, 2, [2, 3, 3]⟩, ⟨23, 5, [2, 11]⟩, ⟨29, 2, [2, 2, 7]⟩, ⟨31, 3, [2, 3, 5]⟩, ⟨37, 2, [2, 2, 3, 3]⟩,
    ⟨41, 6, [2, 2, 2, 5]⟩, ⟨43, 3, [2, 3, 7]⟩, ⟨47, 5, [2, 23]⟩, ⟨53, 2, [2, 2, 13]⟩, ⟨59, 2, [2, 29]⟩,
    ⟨67, 2, [2, 3, 11]⟩, ⟨73, 5, [2, 2, 2, 3, 3]⟩, ⟨79, 3, [2, 3, 13]⟩, ⟨83, 2, [2, 41]⟩,
    ⟨97, 5, [2, 2, 2, 2, 2, 3]⟩, ⟨103, 5, [2, 3, 17]⟩, ⟨107, 2, [2, 53]⟩, ⟨113, 3, [2, 2, 2, 2, 7]⟩,
    ⟨127, 3, [2, 3, 3, 7]⟩, ⟨131, 2, [2, 5, 13]⟩, ⟨173, 2, [2, 2, 43]⟩, ⟨223, 3, [2, 3, 37]⟩, ⟨239, 7, [2, 7, 17]⟩,
    ⟨269, 2, [2, 2, 67]⟩, ⟨307, 5, [2, 3, 3, 17]⟩, ⟨353, 3, [2, 2, 2, 2, 2, 11]⟩, ⟨419, 2, [2, 11, 19]⟩,
    ⟨479, 13, [2, 239]⟩, ⟨487, 3, [2, 3, 3, 3, 3, 3]⟩, ⟨991, 6, [2, 3, 3, 5, 11]⟩, ⟨1361, 3, [2, 2, 2, 2, 5, 17]⟩,
    ⟨1723, 3, [2, 3, 7, 41]⟩, ⟨2437, 2, [2, 2, 3, 7, 29]⟩, ⟨2551, 6, [2, 3, 5, 5, 17]⟩, ⟨2851, 2, [2, 3, 5, 5, 19]⟩,
    ⟨2939, 2, [2, 13, 113]⟩, ⟨3727, 3, [2, 3, 3, 3, 3, 23]⟩, ⟨3797, 2, [2, 2, 13, 73]⟩,
    ⟨4153, 5, [2, 2, 2, 3, 173]⟩, ⟨5879, 11, [2, 2939]⟩, ⟨9463, 3, [2, 3, 19, 83]⟩, ⟨17231, 13, [2, 5, 1723]⟩,
    ⟨22111, 6, [2, 3, 5, 11, 67]⟩, ⟨30703, 3, [2, 3, 7, 17, 43]⟩, ⟨32573, 2, [2, 2, 17, 479]⟩,
    ⟨34123, 2, [2, 3, 11, 11, 47]⟩, ⟨37853, 2, [2, 2, 9463]⟩, ⟨41081, 3, [2, 2, 2, 5, 13, 79]⟩,
    ⟨57467, 2, [2, 59, 487]⟩, ⟨65147, 2, [2, 32573]⟩, ⟨75707, 2, [2, 37853]⟩, ⟨82163, 2, [2, 41081]⟩,
    ⟨132049, 26, [2, 2, 2, 2, 3, 3, 7, 131]⟩, ⟨132667, 5, [2, 3, 22111]⟩, ⟨137849, 3, [2, 2, 2, 17231]⟩,
    ⟨409477, 2, [2, 2, 3, 34123]⟩, ⟨430751, 17, [2, 5, 5, 5, 1723]⟩, ⟨531581, 2, [2, 2, 5, 7, 3797]⟩,
    ⟨569003, 2, [2, 7, 97, 419]⟩, ⟨1224481, 13, [2, 2, 2, 2, 2, 3, 5, 2551]⟩, ⟨1923133, 2, [2, 2, 3, 43, 3727]⟩,
    ⟨8574133, 2, [2, 2, 3, 7, 103, 991]⟩, ⟨14741173, 2, [2, 2, 3, 3, 409477]⟩, ⟨58964693, 2, [2, 2, 14741173]⟩,
    ⟨292386187, 2, [2, 3, 3, 3, 3, 307, 5879]⟩, ⟨2773320623, 5, [2, 2437, 569003]⟩,
    ⟨72106336199, 7, [2, 13, 2773320623]⟩, ⟨213441916511, 13, [2, 5, 73, 292386187]⟩,
    ⟨1257559732178653, 2, [2, 2, 3, 7, 23, 531581, 1224481]⟩,
    ⟨1919519569386763, 2, [2, 3, 7, 19, 47, 47, 127, 8574133]⟩,
    ⟨31757755568855353, 10, [2, 2, 2, 3, 31, 107, 223, 4153, 430751]⟩,
    ⟨4434155615661930479, 17, [2, 41, 43, 1257559732178653]⟩,
    ⟨3044861653679985063343, 5, [2, 3, 11, 30703, 82163, 132667, 137849]⟩,
    ⟨172054593956031949258510691, 2, [2, 5, 1361, 2851, 4434155615661930479]⟩,
    ⟨198211423230930754013084525763697, 5, [2, 2, 2, 2, 3, 23, 58964693, 3044861653679985063343]⟩,
    ⟨75445702479781427272750846543864801, 7, [2, 2, 2, 2, 2, 3, 3, 5, 5, 75707, 72106336199, 1919519569386763]⟩,
    ⟨19757330305831588566944191468367130476339, 2, [2, 269, 213441916511, 172054593956031949258510691]⟩,
    ⟨276602624281642239937218680557139826668747, 2, [2, 7, 19757330305831588566944191468367130476339]⟩,
    ⟨74058212732561358302231226437062788676166966415465897661863160754340907, 2, [2, 3, 353, 57467, 132049, 1923133, 31757755568855353, 75445702479781427272750846543864801]⟩,
    ⟨7237005577332262213973186563042994240857116359379907606001950938285454250989, 2, [2, 2, 3, 11, 198211423230930754013084525763697, 276602624281642239937218680557139826668747]⟩,
    ⟨57896044618658097711785492504343953926634992332820282019728792003956564819949, 2, [2, 2, 3, 65147, 74058212732561358302231226437062788676166966415465897661863160754340907]⟩]

theorem entries_chain : Chain [2] entries := by decide +kernel

theorem entries_prime : ∀ e ∈ entries, e.number.Prime :=
  entries_chain.prime fun q listed => by
    rw [List.mem_singleton.mp listed]
    exact Nat.prime_two

theorem prime_of_entry {n : ℕ} (listed : n ∈ entries.map Entry.number) : n.Prime := by
  obtain ⟨e, member, rfl⟩ := List.mem_map.mp listed
  exact entries_prime e member

theorem prime_P : P.Prime := prime_of_entry (by decide)

theorem prime_L : L.Prime := prime_of_entry (by decide)

instance : Fact P.Prime := ⟨prime_P⟩

instance : Fact L.Prime := ⟨prime_L⟩

end Coalesce.Primes25519
