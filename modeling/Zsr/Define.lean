namespace Zsr

abbrev LEN_32 := 32
abbrev LEN_64 := 64
abbrev LEN_128 := 128
abbrev LEN_256 := 256
abbrev LEN_512 := 512
abbrev LEN_1024 := 1024
abbrev LEN_1M := 1048576

end Zsr
