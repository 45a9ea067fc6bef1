import Mathlib.Init

/-!
# The extension tables of `crc32c`

The five 256-entry tables of `util/crc32c.cpp`, entry for entry. What each entry means is proved in
`Squirrel.Util.Crc32c`; here they are only data.
-/

namespace Squirrel

namespace Crc32c

/-- The effect of one byte on an otherwise zero remainder. -/
def kByteExtensionTable : List (BitVec 32) := [
  0x00000000#32, 0xf26b8303#32, 0xe13b70f7#32, 0x1350f3f4#32, 0xc79a971f#32, 0x35f1141c#32,
  0x26a1e7e8#32, 0xd4ca64eb#32, 0x8ad958cf#32, 0x78b2dbcc#32, 0x6be22838#32, 0x9989ab3b#32,
  0x4d43cfd0#32, 0xbf284cd3#32, 0xac78bf27#32, 0x5e133c24#32, 0x105ec76f#32, 0xe235446c#32,
  0xf165b798#32, 0x030e349b#32, 0xd7c45070#32, 0x25afd373#32, 0x36ff2087#32, 0xc494a384#32,
  0x9a879fa0#32, 0x68ec1ca3#32, 0x7bbcef57#32, 0x89d76c54#32, 0x5d1d08bf#32, 0xaf768bbc#32,
  0xbc267848#32, 0x4e4dfb4b#32, 0x20bd8ede#32, 0xd2d60ddd#32, 0xc186fe29#32, 0x33ed7d2a#32,
  0xe72719c1#32, 0x154c9ac2#32, 0x061c6936#32, 0xf477ea35#32, 0xaa64d611#32, 0x580f5512#32,
  0x4b5fa6e6#32, 0xb93425e5#32, 0x6dfe410e#32, 0x9f95c20d#32, 0x8cc531f9#32, 0x7eaeb2fa#32,
  0x30e349b1#32, 0xc288cab2#32, 0xd1d83946#32, 0x23b3ba45#32, 0xf779deae#32, 0x05125dad#32,
  0x1642ae59#32, 0xe4292d5a#32, 0xba3a117e#32, 0x4851927d#32, 0x5b016189#32, 0xa96ae28a#32,
  0x7da08661#32, 0x8fcb0562#32, 0x9c9bf696#32, 0x6ef07595#32, 0x417b1dbc#32, 0xb3109ebf#32,
  0xa0406d4b#32, 0x522bee48#32, 0x86e18aa3#32, 0x748a09a0#32, 0x67dafa54#32, 0x95b17957#32,
  0xcba24573#32, 0x39c9c670#32, 0x2a993584#32, 0xd8f2b687#32, 0x0c38d26c#32, 0xfe53516f#32,
  0xed03a29b#32, 0x1f682198#32, 0x5125dad3#32, 0xa34e59d0#32, 0xb01eaa24#32, 0x42752927#32,
  0x96bf4dcc#32, 0x64d4cecf#32, 0x77843d3b#32, 0x85efbe38#32, 0xdbfc821c#32, 0x2997011f#32,
  0x3ac7f2eb#32, 0xc8ac71e8#32, 0x1c661503#32, 0xee0d9600#32, 0xfd5d65f4#32, 0x0f36e6f7#32,
  0x61c69362#32, 0x93ad1061#32, 0x80fde395#32, 0x72966096#32, 0xa65c047d#32, 0x5437877e#32,
  0x4767748a#32, 0xb50cf789#32, 0xeb1fcbad#32, 0x197448ae#32, 0x0a24bb5a#32, 0xf84f3859#32,
  0x2c855cb2#32, 0xdeeedfb1#32, 0xcdbe2c45#32, 0x3fd5af46#32, 0x7198540d#32, 0x83f3d70e#32,
  0x90a324fa#32, 0x62c8a7f9#32, 0xb602c312#32, 0x44694011#32, 0x5739b3e5#32, 0xa55230e6#32,
  0xfb410cc2#32, 0x092a8fc1#32, 0x1a7a7c35#32, 0xe811ff36#32, 0x3cdb9bdd#32, 0xceb018de#32,
  0xdde0eb2a#32, 0x2f8b6829#32, 0x82f63b78#32, 0x709db87b#32, 0x63cd4b8f#32, 0x91a6c88c#32,
  0x456cac67#32, 0xb7072f64#32, 0xa457dc90#32, 0x563c5f93#32, 0x082f63b7#32, 0xfa44e0b4#32,
  0xe9141340#32, 0x1b7f9043#32, 0xcfb5f4a8#32, 0x3dde77ab#32, 0x2e8e845f#32, 0xdce5075c#32,
  0x92a8fc17#32, 0x60c37f14#32, 0x73938ce0#32, 0x81f80fe3#32, 0x55326b08#32, 0xa759e80b#32,
  0xb4091bff#32, 0x466298fc#32, 0x1871a4d8#32, 0xea1a27db#32, 0xf94ad42f#32, 0x0b21572c#32,
  0xdfeb33c7#32, 0x2d80b0c4#32, 0x3ed04330#32, 0xccbbc033#32, 0xa24bb5a6#32, 0x502036a5#32,
  0x4370c551#32, 0xb11b4652#32, 0x65d122b9#32, 0x97baa1ba#32, 0x84ea524e#32, 0x7681d14d#32,
  0x2892ed69#32, 0xdaf96e6a#32, 0xc9a99d9e#32, 0x3bc21e9d#32, 0xef087a76#32, 0x1d63f975#32,
  0x0e330a81#32, 0xfc588982#32, 0xb21572c9#32, 0x407ef1ca#32, 0x532e023e#32, 0xa145813d#32,
  0x758fe5d6#32, 0x87e466d5#32, 0x94b49521#32, 0x66df1622#32, 0x38cc2a06#32, 0xcaa7a905#32,
  0xd9f75af1#32, 0x2b9cd9f2#32, 0xff56bd19#32, 0x0d3d3e1a#32, 0x1e6dcdee#32, 0xec064eed#32,
  0xc38d26c4#32, 0x31e6a5c7#32, 0x22b65633#32, 0xd0ddd530#32, 0x0417b1db#32, 0xf67c32d8#32,
  0xe52cc12c#32, 0x1747422f#32, 0x49547e0b#32, 0xbb3ffd08#32, 0xa86f0efc#32, 0x5a048dff#32,
  0x8ecee914#32, 0x7ca56a17#32, 0x6ff599e3#32, 0x9d9e1ae0#32, 0xd3d3e1ab#32, 0x21b862a8#32,
  0x32e8915c#32, 0xc083125f#32, 0x144976b4#32, 0xe622f5b7#32, 0xf5720643#32, 0x07198540#32,
  0x590ab964#32, 0xab613a67#32, 0xb831c993#32, 0x4a5a4a90#32, 0x9e902e7b#32, 0x6cfbad78#32,
  0x7fab5e8c#32, 0x8dc0dd8f#32, 0xe330a81a#32, 0x115b2b19#32, 0x020bd8ed#32, 0xf0605bee#32,
  0x24aa3f05#32, 0xd6c1bc06#32, 0xc5914ff2#32, 0x37faccf1#32, 0x69e9f0d5#32, 0x9b8273d6#32,
  0x88d28022#32, 0x7ab90321#32, 0xae7367ca#32, 0x5c18e4c9#32, 0x4f48173d#32, 0xbd23943e#32,
  0xf36e6f75#32, 0x0105ec76#32, 0x12551f82#32, 0xe03e9c81#32, 0x34f4f86a#32, 0xc69f7b69#32,
  0xd5cf889d#32, 0x27a40b9e#32, 0x79b737ba#32, 0x8bdcb4b9#32, 0x988c474d#32, 0x6ae7c44e#32,
  0xbe2da0a5#32, 0x4c4623a6#32, 0x5f16d052#32, 0xad7d5351#32]

/-- Sixteen bytes on, the effect of the high byte of a word. -/
def kStrideExtensionTable0 : List (BitVec 32) := [
  0x00000000#32, 0x30d23865#32, 0x61a470ca#32, 0x517648af#32, 0xc348e194#32, 0xf39ad9f1#32,
  0xa2ec915e#32, 0x923ea93b#32, 0x837db5d9#32, 0xb3af8dbc#32, 0xe2d9c513#32, 0xd20bfd76#32,
  0x4035544d#32, 0x70e76c28#32, 0x21912487#32, 0x11431ce2#32, 0x03171d43#32, 0x33c52526#32,
  0x62b36d89#32, 0x526155ec#32, 0xc05ffcd7#32, 0xf08dc4b2#32, 0xa1fb8c1d#32, 0x9129b478#32,
  0x806aa89a#32, 0xb0b890ff#32, 0xe1ced850#32, 0xd11ce035#32, 0x4322490e#32, 0x73f0716b#32,
  0x228639c4#32, 0x125401a1#32, 0x062e3a86#32, 0x36fc02e3#32, 0x678a4a4c#32, 0x57587229#32,
  0xc566db12#32, 0xf5b4e377#32, 0xa4c2abd8#32, 0x941093bd#32, 0x85538f5f#32, 0xb581b73a#32,
  0xe4f7ff95#32, 0xd425c7f0#32, 0x461b6ecb#32, 0x76c956ae#32, 0x27bf1e01#32, 0x176d2664#32,
  0x053927c5#32, 0x35eb1fa0#32, 0x649d570f#32, 0x544f6f6a#32, 0xc671c651#32, 0xf6a3fe34#32,
  0xa7d5b69b#32, 0x97078efe#32, 0x8644921c#32, 0xb696aa79#32, 0xe7e0e2d6#32, 0xd732dab3#32,
  0x450c7388#32, 0x75de4bed#32, 0x24a80342#32, 0x147a3b27#32, 0x0c5c750c#32, 0x3c8e4d69#32,
  0x6df805c6#32, 0x5d2a3da3#32, 0xcf149498#32, 0xffc6acfd#32, 0xaeb0e452#32, 0x9e62dc37#32,
  0x8f21c0d5#32, 0xbff3f8b0#32, 0xee85b01f#32, 0xde57887a#32, 0x4c692141#32, 0x7cbb1924#32,
  0x2dcd518b#32, 0x1d1f69ee#32, 0x0f4b684f#32, 0x3f99502a#32, 0x6eef1885#32, 0x5e3d20e0#32,
  0xcc0389db#32, 0xfcd1b1be#32, 0xada7f911#32, 0x9d75c174#32, 0x8c36dd96#32, 0xbce4e5f3#32,
  0xed92ad5c#32, 0xdd409539#32, 0x4f7e3c02#32, 0x7fac0467#32, 0x2eda4cc8#32, 0x1e0874ad#32,
  0x0a724f8a#32, 0x3aa077ef#32, 0x6bd63f40#32, 0x5b040725#32, 0xc93aae1e#32, 0xf9e8967b#32,
  0xa89eded4#32, 0x984ce6b1#32, 0x890ffa53#32, 0xb9ddc236#32, 0xe8ab8a99#32, 0xd879b2fc#32,
  0x4a471bc7#32, 0x7a9523a2#32, 0x2be36b0d#32, 0x1b315368#32, 0x096552c9#32, 0x39b76aac#32,
  0x68c12203#32, 0x58131a66#32, 0xca2db35d#32, 0xfaff8b38#32, 0xab89c397#32, 0x9b5bfbf2#32,
  0x8a18e710#32, 0xbacadf75#32, 0xebbc97da#32, 0xdb6eafbf#32, 0x49500684#32, 0x79823ee1#32,
  0x28f4764e#32, 0x18264e2b#32, 0x18b8ea18#32, 0x286ad27d#32, 0x791c9ad2#32, 0x49cea2b7#32,
  0xdbf00b8c#32, 0xeb2233e9#32, 0xba547b46#32, 0x8a864323#32, 0x9bc55fc1#32, 0xab1767a4#32,
  0xfa612f0b#32, 0xcab3176e#32, 0x588dbe55#32, 0x685f8630#32, 0x3929ce9f#32, 0x09fbf6fa#32,
  0x1baff75b#32, 0x2b7dcf3e#32, 0x7a0b8791#32, 0x4ad9bff4#32, 0xd8e716cf#32, 0xe8352eaa#32,
  0xb9436605#32, 0x89915e60#32, 0x98d24282#32, 0xa8007ae7#32, 0xf9763248#32, 0xc9a40a2d#32,
  0x5b9aa316#32, 0x6b489b73#32, 0x3a3ed3dc#32, 0x0aecebb9#32, 0x1e96d09e#32, 0x2e44e8fb#32,
  0x7f32a054#32, 0x4fe09831#32, 0xddde310a#32, 0xed0c096f#32, 0xbc7a41c0#32, 0x8ca879a5#32,
  0x9deb6547#32, 0xad395d22#32, 0xfc4f158d#32, 0xcc9d2de8#32, 0x5ea384d3#32, 0x6e71bcb6#32,
  0x3f07f419#32, 0x0fd5cc7c#32, 0x1d81cddd#32, 0x2d53f5b8#32, 0x7c25bd17#32, 0x4cf78572#32,
  0xdec92c49#32, 0xee1b142c#32, 0xbf6d5c83#32, 0x8fbf64e6#32, 0x9efc7804#32, 0xae2e4061#32,
  0xff5808ce#32, 0xcf8a30ab#32, 0x5db49990#32, 0x6d66a1f5#32, 0x3c10e95a#32, 0x0cc2d13f#32,
  0x14e49f14#32, 0x2436a771#32, 0x7540efde#32, 0x4592d7bb#32, 0xd7ac7e80#32, 0xe77e46e5#32,
  0xb6080e4a#32, 0x86da362f#32, 0x97992acd#32, 0xa74b12a8#32, 0xf63d5a07#32, 0xc6ef6262#32,
  0x54d1cb59#32, 0x6403f33c#32, 0x3575bb93#32, 0x05a783f6#32, 0x17f38257#32, 0x2721ba32#32,
  0x7657f29d#32, 0x4685caf8#32, 0xd4bb63c3#32, 0xe4695ba6#32, 0xb51f1309#32, 0x85cd2b6c#32,
  0x948e378e#32, 0xa45c0feb#32, 0xf52a4744#32, 0xc5f87f21#32, 0x57c6d61a#32, 0x6714ee7f#32,
  0x3662a6d0#32, 0x06b09eb5#32, 0x12caa592#32, 0x22189df7#32, 0x736ed558#32, 0x43bced3d#32,
  0xd1824406#32, 0xe1507c63#32, 0xb02634cc#32, 0x80f40ca9#32, 0x91b7104b#32, 0xa165282e#32,
  0xf0136081#32, 0xc0c158e4#32, 0x52fff1df#32, 0x622dc9ba#32, 0x335b8115#32, 0x0389b970#32,
  0x11ddb8d1#32, 0x210f80b4#32, 0x7079c81b#32, 0x40abf07e#32, 0xd2955945#32, 0xe2476120#32,
  0xb331298f#32, 0x83e311ea#32, 0x92a00d08#32, 0xa272356d#32, 0xf3047dc2#32, 0xc3d645a7#32,
  0x51e8ec9c#32, 0x613ad4f9#32, 0x304c9c56#32, 0x009ea433#32]

/-- Sixteen bytes on, the effect of the third byte of a word. -/
def kStrideExtensionTable1 : List (BitVec 32) := [
  0x00000000#32, 0x54075546#32, 0xa80eaa8c#32, 0xfc09ffca#32, 0x55f123e9#32, 0x01f676af#32,
  0xfdff8965#32, 0xa9f8dc23#32, 0xabe247d2#32, 0xffe51294#32, 0x03eced5e#32, 0x57ebb818#32,
  0xfe13643b#32, 0xaa14317d#32, 0x561dceb7#32, 0x021a9bf1#32, 0x5228f955#32, 0x062fac13#32,
  0xfa2653d9#32, 0xae21069f#32, 0x07d9dabc#32, 0x53de8ffa#32, 0xafd77030#32, 0xfbd02576#32,
  0xf9cabe87#32, 0xadcdebc1#32, 0x51c4140b#32, 0x05c3414d#32, 0xac3b9d6e#32, 0xf83cc828#32,
  0x043537e2#32, 0x503262a4#32, 0xa451f2aa#32, 0xf056a7ec#32, 0x0c5f5826#32, 0x58580d60#32,
  0xf1a0d143#32, 0xa5a78405#32, 0x59ae7bcf#32, 0x0da92e89#32, 0x0fb3b578#32, 0x5bb4e03e#32,
  0xa7bd1ff4#32, 0xf3ba4ab2#32, 0x5a429691#32, 0x0e45c3d7#32, 0xf24c3c1d#32, 0xa64b695b#32,
  0xf6790bff#32, 0xa27e5eb9#32, 0x5e77a173#32, 0x0a70f435#32, 0xa3882816#32, 0xf78f7d50#32,
  0x0b86829a#32, 0x5f81d7dc#32, 0x5d9b4c2d#32, 0x099c196b#32, 0xf595e6a1#32, 0xa192b3e7#32,
  0x086a6fc4#32, 0x5c6d3a82#32, 0xa064c548#32, 0xf463900e#32, 0x4d4f93a5#32, 0x1948c6e3#32,
  0xe5413929#32, 0xb1466c6f#32, 0x18beb04c#32, 0x4cb9e50a#32, 0xb0b01ac0#32, 0xe4b74f86#32,
  0xe6add477#32, 0xb2aa8131#32, 0x4ea37efb#32, 0x1aa42bbd#32, 0xb35cf79e#32, 0xe75ba2d8#32,
  0x1b525d12#32, 0x4f550854#32, 0x1f676af0#32, 0x4b603fb6#32, 0xb769c07c#32, 0xe36e953a#32,
  0x4a964919#32, 0x1e911c5f#32, 0xe298e395#32, 0xb69fb6d3#32, 0xb4852d22#32, 0xe0827864#32,
  0x1c8b87ae#32, 0x488cd2e8#32, 0xe1740ecb#32, 0xb5735b8d#32, 0x497aa447#32, 0x1d7df101#32,
  0xe91e610f#32, 0xbd193449#32, 0x4110cb83#32, 0x15179ec5#32, 0xbcef42e6#32, 0xe8e817a0#32,
  0x14e1e86a#32, 0x40e6bd2c#32, 0x42fc26dd#32, 0x16fb739b#32, 0xeaf28c51#32, 0xbef5d917#32,
  0x170d0534#32, 0x430a5072#32, 0xbf03afb8#32, 0xeb04fafe#32, 0xbb36985a#32, 0xef31cd1c#32,
  0x133832d6#32, 0x473f6790#32, 0xeec7bbb3#32, 0xbac0eef5#32, 0x46c9113f#32, 0x12ce4479#32,
  0x10d4df88#32, 0x44d38ace#32, 0xb8da7504#32, 0xecdd2042#32, 0x4525fc61#32, 0x1122a927#32,
  0xed2b56ed#32, 0xb92c03ab#32, 0x9a9f274a#32, 0xce98720c#32, 0x32918dc6#32, 0x6696d880#32,
  0xcf6e04a3#32, 0x9b6951e5#32, 0x6760ae2f#32, 0x3367fb69#32, 0x317d6098#32, 0x657a35de#32,
  0x9973ca14#32, 0xcd749f52#32, 0x648c4371#32, 0x308b1637#32, 0xcc82e9fd#32, 0x9885bcbb#32,
  0xc8b7de1f#32, 0x9cb08b59#32, 0x60b97493#32, 0x34be21d5#32, 0x9d46fdf6#32, 0xc941a8b0#32,
  0x3548577a#32, 0x614f023c#32, 0x635599cd#32, 0x3752cc8b#32, 0xcb5b3341#32, 0x9f5c6607#32,
  0x36a4ba24#32, 0x62a3ef62#32, 0x9eaa10a8#32, 0xcaad45ee#32, 0x3eced5e0#32, 0x6ac980a6#32,
  0x96c07f6c#32, 0xc2c72a2a#32, 0x6b3ff609#32, 0x3f38a34f#32, 0xc3315c85#32, 0x973609c3#32,
  0x952c9232#32, 0xc12bc774#32, 0x3d2238be#32, 0x69256df8#32, 0xc0ddb1db#32, 0x94dae49d#32,
  0x68d31b57#32, 0x3cd44e11#32, 0x6ce62cb5#32, 0x38e179f3#32, 0xc4e88639#32, 0x90efd37f#32,
  0x39170f5c#32, 0x6d105a1a#32, 0x9119a5d0#32, 0xc51ef096#32, 0xc7046b67#32, 0x93033e21#32,
  0x6f0ac1eb#32, 0x3b0d94ad#32, 0x92f5488e#32, 0xc6f21dc8#32, 0x3afbe202#32, 0x6efcb744#32,
  0xd7d0b4ef#32, 0x83d7e1a9#32, 0x7fde1e63#32, 0x2bd94b25#32, 0x82219706#32, 0xd626c240#32,
  0x2a2f3d8a#32, 0x7e2868cc#32, 0x7c32f33d#32, 0x2835a67b#32, 0xd43c59b1#32, 0x803b0cf7#32,
  0x29c3d0d4#32, 0x7dc48592#32, 0x81cd7a58#32, 0xd5ca2f1e#32, 0x85f84dba#32, 0xd1ff18fc#32,
  0x2df6e736#32, 0x79f1b270#32, 0xd0096e53#32, 0x840e3b15#32, 0x7807c4df#32, 0x2c009199#32,
  0x2e1a0a68#32, 0x7a1d5f2e#32, 0x8614a0e4#32, 0xd213f5a2#32, 0x7beb2981#32, 0x2fec7cc7#32,
  0xd3e5830d#32, 0x87e2d64b#32, 0x73814645#32, 0x27861303#32, 0xdb8fecc9#32, 0x8f88b98f#32,
  0x267065ac#32, 0x727730ea#32, 0x8e7ecf20#32, 0xda799a66#32, 0xd8630197#32, 0x8c6454d1#32,
  0x706dab1b#32, 0x246afe5d#32, 0x8d92227e#32, 0xd9957738#32, 0x259c88f2#32, 0x719bddb4#32,
  0x21a9bf10#32, 0x75aeea56#32, 0x89a7159c#32, 0xdda040da#32, 0x74589cf9#32, 0x205fc9bf#32,
  0xdc563675#32, 0x88516333#32, 0x8a4bf8c2#32, 0xde4cad84#32, 0x2245524e#32, 0x76420708#32,
  0xdfbadb2b#32, 0x8bbd8e6d#32, 0x77b471a7#32, 0x23b324e1#32]

/-- Sixteen bytes on, the effect of the second byte of a word. -/
def kStrideExtensionTable2 : List (BitVec 32) := [
  0x00000000#32, 0x678efd01#32, 0xcf1dfa02#32, 0xa8930703#32, 0x9bd782f5#32, 0xfc597ff4#32,
  0x54ca78f7#32, 0x334485f6#32, 0x3243731b#32, 0x55cd8e1a#32, 0xfd5e8919#32, 0x9ad07418#32,
  0xa994f1ee#32, 0xce1a0cef#32, 0x66890bec#32, 0x0107f6ed#32, 0x6486e636#32, 0x03081b37#32,
  0xab9b1c34#32, 0xcc15e135#32, 0xff5164c3#32, 0x98df99c2#32, 0x304c9ec1#32, 0x57c263c0#32,
  0x56c5952d#32, 0x314b682c#32, 0x99d86f2f#32, 0xfe56922e#32, 0xcd1217d8#32, 0xaa9cead9#32,
  0x020fedda#32, 0x658110db#32, 0xc90dcc6c#32, 0xae83316d#32, 0x0610366e#32, 0x619ecb6f#32,
  0x52da4e99#32, 0x3554b398#32, 0x9dc7b49b#32, 0xfa49499a#32, 0xfb4ebf77#32, 0x9cc04276#32,
  0x34534575#32, 0x53ddb874#32, 0x60993d82#32, 0x0717c083#32, 0xaf84c780#32, 0xc80a3a81#32,
  0xad8b2a5a#32, 0xca05d75b#32, 0x6296d058#32, 0x05182d59#32, 0x365ca8af#32, 0x51d255ae#32,
  0xf94152ad#32, 0x9ecfafac#32, 0x9fc85941#32, 0xf846a440#32, 0x50d5a343#32, 0x375b5e42#32,
  0x041fdbb4#32, 0x639126b5#32, 0xcb0221b6#32, 0xac8cdcb7#32, 0x97f7ee29#32, 0xf0791328#32,
  0x58ea142b#32, 0x3f64e92a#32, 0x0c206cdc#32, 0x6bae91dd#32, 0xc33d96de#32, 0xa4b36bdf#32,
  0xa5b49d32#32, 0xc23a6033#32, 0x6aa96730#32, 0x0d279a31#32, 0x3e631fc7#32, 0x59ede2c6#32,
  0xf17ee5c5#32, 0x96f018c4#32, 0xf371081f#32, 0x94fff51e#32, 0x3c6cf21d#32, 0x5be20f1c#32,
  0x68a68aea#32, 0x0f2877eb#32, 0xa7bb70e8#32, 0xc0358de9#32, 0xc1327b04#32, 0xa6bc8605#32,
  0x0e2f8106#32, 0x69a17c07#32, 0x5ae5f9f1#32, 0x3d6b04f0#32, 0x95f803f3#32, 0xf276fef2#32,
  0x5efa2245#32, 0x3974df44#32, 0x91e7d847#32, 0xf6692546#32, 0xc52da0b0#32, 0xa2a35db1#32,
  0x0a305ab2#32, 0x6dbea7b3#32, 0x6cb9515e#32, 0x0b37ac5f#32, 0xa3a4ab5c#32, 0xc42a565d#32,
  0xf76ed3ab#32, 0x90e02eaa#32, 0x387329a9#32, 0x5ffdd4a8#32, 0x3a7cc473#32, 0x5df23972#32,
  0xf5613e71#32, 0x92efc370#32, 0xa1ab4686#32, 0xc625bb87#32, 0x6eb6bc84#32, 0x09384185#32,
  0x083fb768#32, 0x6fb14a69#32, 0xc7224d6a#32, 0xa0acb06b#32, 0x93e8359d#32, 0xf466c89c#32,
  0x5cf5cf9f#32, 0x3b7b329e#32, 0x2a03aaa3#32, 0x4d8d57a2#32, 0xe51e50a1#32, 0x8290ada0#32,
  0xb1d42856#32, 0xd65ad557#32, 0x7ec9d254#32, 0x19472f55#32, 0x1840d9b8#32, 0x7fce24b9#32,
  0xd75d23ba#32, 0xb0d3debb#32, 0x83975b4d#32, 0xe419a64c#32, 0x4c8aa14f#32, 0x2b045c4e#32,
  0x4e854c95#32, 0x290bb194#32, 0x8198b697#32, 0xe6164b96#32, 0xd552ce60#32, 0xb2dc3361#32,
  0x1a4f3462#32, 0x7dc1c963#32, 0x7cc63f8e#32, 0x1b48c28f#32, 0xb3dbc58c#32, 0xd455388d#32,
  0xe711bd7b#32, 0x809f407a#32, 0x280c4779#32, 0x4f82ba78#32, 0xe30e66cf#32, 0x84809bce#32,
  0x2c139ccd#32, 0x4b9d61cc#32, 0x78d9e43a#32, 0x1f57193b#32, 0xb7c41e38#32, 0xd04ae339#32,
  0xd14d15d4#32, 0xb6c3e8d5#32, 0x1e50efd6#32, 0x79de12d7#32, 0x4a9a9721#32, 0x2d146a20#32,
  0x85876d23#32, 0xe2099022#32, 0x878880f9#32, 0xe0067df8#32, 0x48957afb#32, 0x2f1b87fa#32,
  0x1c5f020c#32, 0x7bd1ff0d#32, 0xd342f80e#32, 0xb4cc050f#32, 0xb5cbf3e2#32, 0xd2450ee3#32,
  0x7ad609e0#32, 0x1d58f4e1#32, 0x2e1c7117#32, 0x49928c16#32, 0xe1018b15#32, 0x868f7614#32,
  0xbdf4448a#32, 0xda7ab98b#32, 0x72e9be88#32, 0x15674389#32, 0x2623c67f#32, 0x41ad3b7e#32,
  0xe93e3c7d#32, 0x8eb0c17c#32, 0x8fb73791#32, 0xe839ca90#32, 0x40aacd93#32, 0x27243092#32,
  0x1460b564#32, 0x73ee4865#32, 0xdb7d4f66#32, 0xbcf3b267#32, 0xd972a2bc#32, 0xbefc5fbd#32,
  0x166f58be#32, 0x71e1a5bf#32, 0x42a52049#32, 0x252bdd48#32, 0x8db8da4b#32, 0xea36274a#32,
  0xeb31d1a7#32, 0x8cbf2ca6#32, 0x242c2ba5#32, 0x43a2d6a4#32, 0x70e65352#32, 0x1768ae53#32,
  0xbffba950#32, 0xd8755451#32, 0x74f988e6#32, 0x137775e7#32, 0xbbe472e4#32, 0xdc6a8fe5#32,
  0xef2e0a13#32, 0x88a0f712#32, 0x2033f011#32, 0x47bd0d10#32, 0x46bafbfd#32, 0x213406fc#32,
  0x89a701ff#32, 0xee29fcfe#32, 0xdd6d7908#32, 0xbae38409#32, 0x1270830a#32, 0x75fe7e0b#32,
  0x107f6ed0#32, 0x77f193d1#32, 0xdf6294d2#32, 0xb8ec69d3#32, 0x8ba8ec25#32, 0xec261124#32,
  0x44b51627#32, 0x233beb26#32, 0x223c1dcb#32, 0x45b2e0ca#32, 0xed21e7c9#32, 0x8aaf1ac8#32,
  0xb9eb9f3e#32, 0xde65623f#32, 0x76f6653c#32, 0x1178983d#32]

/-- Sixteen bytes on, the effect of the low byte of a word. -/
def kStrideExtensionTable3 : List (BitVec 32) := [
  0x00000000#32, 0xf20c0dfe#32, 0xe1f46d0d#32, 0x13f860f3#32, 0xc604aceb#32, 0x3408a115#32,
  0x27f0c1e6#32, 0xd5fccc18#32, 0x89e52f27#32, 0x7be922d9#32, 0x6811422a#32, 0x9a1d4fd4#32,
  0x4fe183cc#32, 0xbded8e32#32, 0xae15eec1#32, 0x5c19e33f#32, 0x162628bf#32, 0xe42a2541#32,
  0xf7d245b2#32, 0x05de484c#32, 0xd0228454#32, 0x222e89aa#32, 0x31d6e959#32, 0xc3dae4a7#32,
  0x9fc30798#32, 0x6dcf0a66#32, 0x7e376a95#32, 0x8c3b676b#32, 0x59c7ab73#32, 0xabcba68d#32,
  0xb833c67e#32, 0x4a3fcb80#32, 0x2c4c517e#32, 0xde405c80#32, 0xcdb83c73#32, 0x3fb4318d#32,
  0xea48fd95#32, 0x1844f06b#32, 0x0bbc9098#32, 0xf9b09d66#32, 0xa5a97e59#32, 0x57a573a7#32,
  0x445d1354#32, 0xb6511eaa#32, 0x63add2b2#32, 0x91a1df4c#32, 0x8259bfbf#32, 0x7055b241#32,
  0x3a6a79c1#32, 0xc866743f#32, 0xdb9e14cc#32, 0x29921932#32, 0xfc6ed52a#32, 0x0e62d8d4#32,
  0x1d9ab827#32, 0xef96b5d9#32, 0xb38f56e6#32, 0x41835b18#32, 0x527b3beb#32, 0xa0773615#32,
  0x758bfa0d#32, 0x8787f7f3#32, 0x947f9700#32, 0x66739afe#32, 0x5898a2fc#32, 0xaa94af02#32,
  0xb96ccff1#32, 0x4b60c20f#32, 0x9e9c0e17#32, 0x6c9003e9#32, 0x7f68631a#32, 0x8d646ee4#32,
  0xd17d8ddb#32, 0x23718025#32, 0x3089e0d6#32, 0xc285ed28#32, 0x17792130#32, 0xe5752cce#32,
  0xf68d4c3d#32, 0x048141c3#32, 0x4ebe8a43#32, 0xbcb287bd#32, 0xaf4ae74e#32, 0x5d46eab0#32,
  0x88ba26a8#32, 0x7ab62b56#32, 0x694e4ba5#32, 0x9b42465b#32, 0xc75ba564#32, 0x3557a89a#32,
  0x26afc869#32, 0xd4a3c597#32, 0x015f098f#32, 0xf3530471#32, 0xe0ab6482#32, 0x12a7697c#32,
  0x74d4f382#32, 0x86d8fe7c#32, 0x95209e8f#32, 0x672c9371#32, 0xb2d05f69#32, 0x40dc5297#32,
  0x53243264#32, 0xa1283f9a#32, 0xfd31dca5#32, 0x0f3dd15b#32, 0x1cc5b1a8#32, 0xeec9bc56#32,
  0x3b35704e#32, 0xc9397db0#32, 0xdac11d43#32, 0x28cd10bd#32, 0x62f2db3d#32, 0x90fed6c3#32,
  0x8306b630#32, 0x710abbce#32, 0xa4f677d6#32, 0x56fa7a28#32, 0x45021adb#32, 0xb70e1725#32,
  0xeb17f41a#32, 0x191bf9e4#32, 0x0ae39917#32, 0xf8ef94e9#32, 0x2d1358f1#32, 0xdf1f550f#32,
  0xcce735fc#32, 0x3eeb3802#32, 0xb13145f8#32, 0x433d4806#32, 0x50c528f5#32, 0xa2c9250b#32,
  0x7735e913#32, 0x8539e4ed#32, 0x96c1841e#32, 0x64cd89e0#32, 0x38d46adf#32, 0xcad86721#32,
  0xd92007d2#32, 0x2b2c0a2c#32, 0xfed0c634#32, 0x0cdccbca#32, 0x1f24ab39#32, 0xed28a6c7#32,
  0xa7176d47#32, 0x551b60b9#32, 0x46e3004a#32, 0xb4ef0db4#32, 0x6113c1ac#32, 0x931fcc52#32,
  0x80e7aca1#32, 0x72eba15f#32, 0x2ef24260#32, 0xdcfe4f9e#32, 0xcf062f6d#32, 0x3d0a2293#32,
  0xe8f6ee8b#32, 0x1afae375#32, 0x09028386#32, 0xfb0e8e78#32, 0x9d7d1486#32, 0x6f711978#32,
  0x7c89798b#32, 0x8e857475#32, 0x5b79b86d#32, 0xa975b593#32, 0xba8dd560#32, 0x4881d89e#32,
  0x14983ba1#32, 0xe694365f#32, 0xf56c56ac#32, 0x07605b52#32, 0xd29c974a#32, 0x20909ab4#32,
  0x3368fa47#32, 0xc164f7b9#32, 0x8b5b3c39#32, 0x795731c7#32, 0x6aaf5134#32, 0x98a35cca#32,
  0x4d5f90d2#32, 0xbf539d2c#32, 0xacabfddf#32, 0x5ea7f021#32, 0x02be131e#32, 0xf0b21ee0#32,
  0xe34a7e13#32, 0x114673ed#32, 0xc4babff5#32, 0x36b6b20b#32, 0x254ed2f8#32, 0xd742df06#32,
  0xe9a9e704#32, 0x1ba5eafa#32, 0x085d8a09#32, 0xfa5187f7#32, 0x2fad4bef#32, 0xdda14611#32,
  0xce5926e2#32, 0x3c552b1c#32, 0x604cc823#32, 0x9240c5dd#32, 0x81b8a52e#32, 0x73b4a8d0#32,
  0xa64864c8#32, 0x54446936#32, 0x47bc09c5#32, 0xb5b0043b#32, 0xff8fcfbb#32, 0x0d83c245#32,
  0x1e7ba2b6#32, 0xec77af48#32, 0x398b6350#32, 0xcb876eae#32, 0xd87f0e5d#32, 0x2a7303a3#32,
  0x766ae09c#32, 0x8466ed62#32, 0x979e8d91#32, 0x6592806f#32, 0xb06e4c77#32, 0x42624189#32,
  0x519a217a#32, 0xa3962c84#32, 0xc5e5b67a#32, 0x37e9bb84#32, 0x2411db77#32, 0xd61dd689#32,
  0x03e11a91#32, 0xf1ed176f#32, 0xe215779c#32, 0x10197a62#32, 0x4c00995d#32, 0xbe0c94a3#32,
  0xadf4f450#32, 0x5ff8f9ae#32, 0x8a0435b6#32, 0x78083848#32, 0x6bf058bb#32, 0x99fc5545#32,
  0xd3c39ec5#32, 0x21cf933b#32, 0x3237f3c8#32, 0xc03bfe36#32, 0x15c7322e#32, 0xe7cb3fd0#32,
  0xf4335f23#32, 0x063f52dd#32, 0x5a26b1e2#32, 0xa82abc1c#32, 0xbbd2dcef#32, 0x49ded111#32,
  0x9c221d09#32, 0x6e2e10f7#32, 0x7dd67004#32, 0x8fda7dfa#32]

end Crc32c

end Squirrel
